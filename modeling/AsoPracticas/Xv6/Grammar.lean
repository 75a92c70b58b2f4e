import AsoPracticas.Lib.Loop
import AsoPracticas.Xv6.Shell

/-!
# Grammar — the command lines that the shell accepts

The tokens of a line (`lex`) and the grammar of command lines,

```
line  ::= pipe '&'* [';' line]
pipe  ::= exec ['|' pipe]
exec  ::= block | redir* (word redir*)*     with at most MAXARGS - 1 words
block ::= '(' line ')' redir*
redir ::= ('<' | '>' | '>>') word
```

as a relation between tokens and commands (`Derives`).

* `parsecmd_iff` — a line has a command exactly if its tokens derive from `line`, and the strings of the
  command are those of the derivation.
-/

namespace AsoPracticas.Xv6.Shell

open Lib (bind_eq_ok_iff)
open List (append_assoc cons_append foldl_cons length_append length_cons map_append map_cons mem_append mem_cons
  mem_map mem_singleton)

/-! ## Tokens of a line -/

def ordinary (c : UInt8) : Bool := c ∉ whitespace ∧ c ∉ symbols

inductive Tok where
  | lt
  | gt
  /-- `>>` -/
  | append
  | bar
  | amp
  | semi
  | lpar
  | rpar
  | word (w : List UInt8)
  deriving DecidableEq, Repr

def symbol (c : UInt8) : Option Tok :=
  if c = 60 then some .lt
  else if c = 62 then some .gt
  else if c = 124 then some .bar
  else if c = 38 then some .amp
  else if c = 59 then some .semi
  else if c = 40 then some .lpar
  else if c = 41 then some .rpar
  else none

/-- White space is dropped, and a token is as long as it can be. -/
def lex : List UInt8 → List Tok
  | [] => []
  | c :: s =>
    if c ∈ whitespace then lex s
    else
      match symbol c with
      | some t => if t = .gt ∧ s.head? = some 62 then .append :: lex s.tail else t :: lex s
      | none => .word (c :: s.takeWhile ordinary) :: lex (s.dropWhile ordinary)
termination_by s => s.length
decreasing_by
  · simp
  · simp
  · simp
  · have := (List.dropWhile_suffix (l := s) ordinary).length_le
    simp
    omega

/-- What `gettoken` returns for a token. -/
def Tok.code : Tok → UInt8
  | .lt => 60
  | .gt => 62
  | .append => 43
  | .bar => 124
  | .amp => 38
  | .semi => 59
  | .lpar => 40
  | .rpar => 41
  | .word _ => 97

/-- The byte that `peek` sees, for tokens that it asks for. -/
def Tok.lead : Tok → Option UInt8
  | .append => some 62
  | .word _ => none
  | t => some t.code

theorem Tok.code_ne_zero (t : Tok) : t.code ≠ 0 := by
  cases t <;> simp [Tok.code]

theorem Tok.code_eq_word {t : Tok} (h : t.code = 97) : ∃ w, t = .word w := by
  cases t <;> first | exact absurd h (by decide) | exact ⟨_, rfl⟩

theorem lex_nil : lex [] = [] := by
  rw [lex]

variable {s s' : List UInt8} {ts rest : List Tok} {rs : List (Redir (List UInt8))} {n : Nat}

theorem lex_white {c : UInt8} (hc : c ∈ whitespace) : lex (c :: s) = lex s := by
  rw [lex, if_pos hc]

theorem lex_skip (s : List UInt8) : lex (skip s) = lex s := by
  induction s with
  | nil => rfl
  | cons c s ih =>
    by_cases hc : c ∈ whitespace
    · rw [lex_white hc, ← ih]
      simp [skip, hc]
    · simp [skip, hc]

theorem skip_suffix (s : List UInt8) : skip s <:+ s := List.dropWhile_suffix _

theorem not_white_of_skip {c : UInt8} (h : skip s = c :: s') : c ∉ whitespace := by
  intro hc
  grind [skip, whitespace, List.head?_dropWhile_not]

theorem skip_eq_nil_iff (s : List UInt8) : skip s = [] ↔ lex s = [] := by
  constructor
  · intro h
    rw [← lex_skip, h, lex_nil]
  · intro h
    cases hs : skip s with
    | nil => rfl
    | cons c s' => grind [skip, lex, not_white_of_skip, lex_skip]

/-- The word stands in the line, and ends where it has to. -/
structure Word.In (s : List UInt8) (w : Word) : Prop where
  q : w.q <:+ s
  eq : w.q = w.text ++ w.eq
  inside : ∀ c ∈ w.text, ordinary c = true
  after : ∀ c ∈ w.eq.head?, ordinary c = false

theorem Word.In.mono {w : Word} (h : w.In s') (hs : s' <:+ s) : w.In s :=
  ⟨h.q.trans hs, h.eq, h.inside, h.after⟩

theorem word_in {c : UInt8} (hc : c ∉ whitespace) (hsym : c ∉ symbols) :
    (⟨c :: s, s.dropWhile ordinary⟩ : Word).text = c :: s.takeWhile ordinary ∧
      (⟨c :: s, s.dropWhile ordinary⟩ : Word).In (c :: s) := by
  have hlen : (c :: s).length - (s.dropWhile ordinary).length = (s.takeWhile ordinary).length + 1 := by
    have happ := congrArg List.length (List.takeWhile_append_dropWhile (p := ordinary) (l := s))
    rw [length_append] at happ
    simp only [length_cons]
    omega
  have htext : (⟨c :: s, s.dropWhile ordinary⟩ : Word).text = c :: s.takeWhile ordinary := by
    rw [Word.text, hlen, List.take_succ_cons]
    grind [List.takeWhile_append_dropWhile, List.take_left]
  refine ⟨htext, List.suffix_refl _, ?_, ?_, ?_⟩
  all_goals grind [whitespace, symbols, ordinary, List.takeWhile_append_dropWhile, List.all_takeWhile,
    List.head?_dropWhile_not]

theorem scan_spec {c : UInt8} (hc : c ∉ whitespace) :
    ∃ t, lex (c :: s) = t :: lex (scan c s).2 ∧ (scan c s).1 = t.code ∧ (scan c s).2 <:+ s ∧
      (∀ d ∈ symbols, c = d ↔ t.lead = some d) ∧
      ∀ w, t = .word w → (⟨c :: s, (scan c s).2⟩ : Word).text = w ∧ (⟨c :: s, (scan c s).2⟩ : Word).In (c :: s) := by
  by_cases hone : c = 124 ∨ c = 40 ∨ c = 41 ∨ c = 59 ∨ c = 38 ∨ c = 60
  · obtain ⟨t, hsym, hcode, hlead, hgt, hword⟩ : ∃ t, symbol c = some t ∧ t.code = c ∧
        t.lead = some c ∧ t ≠ .gt ∧ ∀ w, t ≠ .word w := by
      rcases hone with rfl | rfl | rfl | rfl | rfl | rfl <;>
        exact ⟨_, rfl, rfl, rfl, by decide, by simp⟩
    simp_all [whitespace, lex, scan, Tok.code, symbols, Tok.lead]
  · by_cases hgt : c = 62
    · subst hgt
      by_cases happ : s.head? = some 62
      · obtain ⟨s', rfl⟩ : ∃ s', s = 62 :: s' := by
          cases s with
          | nil =>
            cases happ
          | cons d s' =>
            cases happ
            exact ⟨s', rfl⟩
        refine ⟨.append, ?_, rfl, List.suffix_cons .., ?_, ?_⟩
        · rw [lex, if_neg hc]
          rfl
        · simp [Tok.lead]
        · simp
      · have hsame : scan 62 s = (62, s) := by
          unfold scan
          rw [if_neg hone, if_pos rfl]
          split
          · simp at happ
          · rfl
        rw [hsame]
        refine ⟨.gt, ?_, rfl, List.suffix_refl s, ?_, ?_⟩
        · rw [lex, if_neg hc]
          exact if_neg fun h => happ h.2
        · simp [Tok.lead, Tok.code]
        · simp
    · have hsym : c ∉ symbols := by
        intro hmem
        simp only [symbols, mem_cons, List.not_mem_nil, or_false] at hmem
        tauto
      have hscan : scan c s = (97, s.dropWhile ordinary) := by
        unfold scan
        rw [if_neg hone, if_neg hgt]
        rfl
      obtain ⟨htext, hin⟩ := word_in (s := s) hc hsym
      rw [hscan]
      have hnone : symbol c = none := by
        simp only [not_or] at hone
        simp [symbol, hone, hgt]
      refine ⟨.word (c :: s.takeWhile ordinary), ?_, rfl, List.dropWhile_suffix _, ?_, ?_⟩
      · rw [lex, if_neg hc, hnone]
      · intro d hd
        refine ⟨fun h => absurd (h ▸ hd) hsym, fun h => ?_⟩
        cases h
      · rintro w ⟨⟩
        exact ⟨htext, hin⟩

theorem gettoken_nil (h : lex s = []) : (gettoken s).ret = 0 ∧ (gettoken s).ps = [] := by
  rw [gettoken, (skip_eq_nil_iff s).2 h]
  exact ⟨rfl, rfl⟩

theorem gettoken_cons (h0 : (0 : UInt8) ∉ s) {t : Tok} (h : lex s = t :: ts) :
    (gettoken s).ret = t.code ∧ lex (gettoken s).ps = ts ∧ (gettoken s).ps <:+ s ∧ (gettoken s).ps.length < s.length ∧
      ∀ w, t = .word w → (gettoken s).word.text = w ∧ (gettoken s).word.In s := by
  cases hs : skip s with
  | nil =>
    rw [(skip_eq_nil_iff s).1 hs] at h
    cases h
  | cons c s' =>
    have hsuffix : c :: s' <:+ s := hs ▸ skip_suffix s
    have hc0 : c ≠ 0 := by
      rintro rfl
      exact h0 (hsuffix.mem List.mem_cons_self)
    have htoken : gettoken s = ⟨(scan c s').1, { q := c :: s', eq := (scan c s').2 }, skip (scan c s').2⟩ := by
      unfold gettoken
      split <;> simp_all
    obtain ⟨t', hlex, hcode, hend, -, hword⟩ := scan_spec (s := s') (not_white_of_skip hs)
    rw [← lex_skip, hs, hlex] at h
    cases h
    have hps := (skip_suffix (scan c s').2).trans hend
    rw [htoken]
    refine ⟨hcode, lex_skip _, hps.trans ((List.suffix_cons c s').trans hsuffix), ?_, ?_⟩
    · have hle := hps.length_le
      have hlt := hsuffix.length_le
      exact Nat.lt_of_le_of_lt hle hlt
    · intro w hw
      obtain ⟨htext, hin⟩ := hword w hw
      exact ⟨htext, hin.mono hsuffix⟩

theorem peek_snd (s toks : List UInt8) : (peek s toks).2 = skip s := by
  unfold peek
  split <;> simp_all

/-- The first token starts with one of the bytes. -/
def Leads (toks : List UInt8) (ts : List Tok) : Prop :=
  ∃ t ∈ ts.head?, ∃ d ∈ toks, t.lead = some d

theorem peek_fst {s toks : List UInt8} (htoks : toks ⊆ symbols) : (peek s toks).1 = true ↔ Leads toks (lex s) := by
  cases hs : skip s with
  | nil =>
    have hnil := (skip_eq_nil_iff s).1 hs
    simp [peek, hs, Leads, hnil]
  | cons c s' =>
    obtain ⟨t, hlex, -, -, hlead, -⟩ := scan_spec (s := s') (not_white_of_skip hs)
    rw [← lex_skip, hs, hlex]
    simp only [peek, hs, Leads, decide_eq_true_eq]
    constructor
    · rintro ⟨-, hc⟩
      exact ⟨t, rfl, c, hc, (hlead c (htoks hc)).1 rfl⟩
    · rintro ⟨t', ht', d, hd, hd'⟩
      cases ht'
      have hcd := (hlead d (htoks hd)).2 hd'
      subst hcd
      refine ⟨?_, hd⟩
      rintro rfl
      exact absurd (htoks hd) (by decide)

theorem gettoken_word (h0 : (0 : UInt8) ∉ s) (h : (gettoken s).ret = 97) :
    lex s = .word (gettoken s).word.text :: lex (gettoken s).ps ∧ (gettoken s).ps <:+ s ∧
      (gettoken s).ps.length < s.length ∧ (gettoken s).word.In s := by
  cases hs : lex s with
  | nil =>
    rw [(gettoken_nil hs).1] at h
    exact absurd h (by decide)
  | cons t ts =>
    obtain ⟨hcode, hps, hsuffix, hlt, hword⟩ := gettoken_cons h0 hs
    obtain ⟨w, rfl⟩ := Tok.code_eq_word (hcode.symm.trans h)
    simp_all

theorem gettoken_zero (h0 : (0 : UInt8) ∉ s) (h : (gettoken s).ret = 0) :
    lex s = [] ∧ (gettoken s).ps = [] := by
  cases hs : lex s with
  | nil => exact ⟨rfl, (gettoken_nil hs).2⟩
  | cons t ts => exact absurd ((gettoken_cons h0 hs).1.symm.trans h) t.code_ne_zero

theorem gettoken_peek {s toks : List UInt8} (h0 : (0 : UInt8) ∉ s) (htoks : toks ⊆ symbols)
    (h : (peek s toks).1 = true) :
    ∃ t, (∃ d ∈ toks, t.lead = some d) ∧ lex s = t :: lex (gettoken (peek s toks).2).ps ∧
      (gettoken (peek s toks).2).ret = t.code ∧ (gettoken (peek s toks).2).ps <:+ s ∧
      (gettoken (peek s toks).2).ps.length < s.length := by
  obtain ⟨t, ht, hlead⟩ := (peek_fst htoks).1 h
  obtain ⟨ts, hs⟩ := List.head?_eq_some_iff.1 (Option.mem_def.1 ht)
  rw [peek_snd]
  have h0' : (0 : UInt8) ∉ skip s := fun hmem => h0 ((skip_suffix s).mem hmem)
  obtain ⟨hcode, hps, hsuffix, hlt, -⟩ := gettoken_cons h0' ((lex_skip s).trans hs)
  have hle := (skip_suffix s).length_le
  exact ⟨t, hlead, by rw [hs, hps], hcode, hsuffix.trans (skip_suffix s), by omega⟩

theorem Tok.lead_inj {t u : Tok} {d : UInt8} (hd : d ≠ 62) (ht : t.lead = some d) (hu : u.lead = some d) : t = u := by
  cases t <;> cases u <;> cases ht <;> first | rfl | exact absurd rfl hd | exact absurd hu (by decide) | cases hu

theorem gettoken_peek_one {d : UInt8} (u : Tok) (h0 : (0 : UInt8) ∉ s)
    (hu : u.lead = some d) (hd : d ∈ symbols ∧ d ≠ 62) (h : (peek s [d]).1 = true) :
    lex s = u :: lex (gettoken (peek s [d]).2).ps ∧ (gettoken (peek s [d]).2).ps <:+ s ∧
      (gettoken (peek s [d]).2).ps.length < s.length := by
  have hsub : [d] ⊆ symbols := by simpa using hd.1
  obtain ⟨t, ⟨e, he, hlead⟩, hs, -, hsuffix, hlt⟩ := gettoken_peek h0 hsub h
  rw [mem_singleton.1 he] at hlead
  rw [Tok.lead_inj hd.2 hlead hu] at hs
  exact ⟨hs, hsuffix, hlt⟩

theorem peek_suffix (s toks : List UInt8) : (peek s toks).2 <:+ s := by
  rw [peek_snd]
  exact skip_suffix s

theorem lex_peek (s toks : List UInt8) : lex (peek s toks).2 = lex s := by
  rw [peek_snd, lex_skip]

/-! ## The grammar -/

/-- `redir ::= ('<' | '>' | '>>') word`, any number of times. -/
inductive Redirs : List Tok → List (Redir (List UInt8)) → Prop
  | nil : Redirs [] []
  | cons {t w ts rs} : t = .lt ∨ t = .gt ∨ t = .append → Redirs ts rs →
      Redirs (t :: .word w :: ts) ((t.code, w) :: rs)

/-- `word redir*`, any number of times, with the words and the redirections. -/
inductive Args : List Tok → List (List UInt8) → List (Redir (List UInt8)) → Prop
  | nil : Args [] [] []
  | cons {w ts rs ts' ws rs'} : Redirs ts rs → Args ts' ws rs' →
      Args (.word w :: (ts ++ ts')) (w :: ws) (rs ++ rs')

inductive NT where
  | line
  | pipe
  | exec
  | block

/-- The tokens derive from the nonterminal, with this command. -/
inductive Derives : NT → List Tok → Cmd (List UInt8) → Prop
  | line {ts c} (n : Nat) : Derives .pipe ts c →
      Derives .line (ts ++ List.replicate n .amp) (Cmd.back^[n] c)
  | list {ts c ts' c'} (n : Nat) : Derives .pipe ts c → Derives .line ts' c' →
      Derives .line (ts ++ List.replicate n .amp ++ .semi :: ts') (.list (Cmd.back^[n] c) c')
  | single {ts c} : Derives .exec ts c → Derives .pipe ts c
  | pipe {ts c ts' c'} : Derives .exec ts c → Derives .pipe ts' c' →
      Derives .pipe (ts ++ .bar :: ts') (.pipe c c')
  | block {ts c} : Derives .block ts c → Derives .exec ts c
  | simple {ts rs ts' ws rs'} : Redirs ts rs → Args ts' ws rs' → ws.length ≤ MAXARGS - 1 →
      Derives .exec (ts ++ ts') ((rs ++ rs').foldl redircmd (.exec ws))
  | paren {ts c ts' rs} : Derives .line ts c → Redirs ts' rs →
      Derives .block (.lpar :: ts ++ .rpar :: ts') (rs.foldl redircmd c)

theorem redir_of_lead {t : Tok} {d : UInt8} (hd : d ∈ [(60 : UInt8), 62]) (h : t.lead = some d) :
    t = .lt ∨ t = .gt ∨ t = .append := by
  cases t <;> simp [Tok.lead, Tok.code] at h ⊢ <;> subst h <;> exact absurd hd (by decide)

/-! ## What the parser returns is derived -/

def Redir.text (r : Redir Word) : Redir (List UInt8) := (r.1, r.2.text)

theorem map_redircmd (rs : List (Redir Word)) (cmd : Cmd Word) :
    (rs.foldl redircmd cmd).map Word.text = (rs.map Redir.text).foldl redircmd (cmd.map Word.text) := by
  induction rs generalizing cmd with
  | nil => rfl
  | cons r rs ih =>
    rw [foldl_cons, ih, map_cons, foldl_cons]
    congr 1
    unfold redircmd Redir.text
    split <;> rfl

theorem words_redircmd (rs : List (Redir Word)) (cmd : Cmd Word) :
    (rs.foldl redircmd cmd).words = cmd.words ++ rs.map Prod.snd := by
  induction rs generalizing cmd with
  | nil => simp
  | cons r rs ih =>
    rw [foldl_cons, ih, map_cons]
    unfold redircmd
    split <;> simp [Cmd.words]

/-- What is returned has the property, and the bound on the calls is met only if it was `low`. -/
def Yields {α : Type} (low : Prop) (Q : α → Prop) : Except Fail α → Prop
  | .ok a => Q a
  | .error e => e = .fuel → low

section Yields

variable {α β : Type} {low low' : Prop} {Q : α → Prop} {R : β → Prop} {x : Except Fail α} {f : α → Except Fail β}
  {a : α}

theorem Yields.bind (hx : Yields low' Q x) (hlow : low' → low) (hf : ∀ a, Q a → Yields low R (f a)) :
    Yields low R (x >>= f) := by
  cases x with
  | error e => exact fun he => hlow (hx he)
  | ok a => exact hf a hx

theorem Yields.mono (hx : Yields low' Q x) (hlow : low' → low) {Q' : α → Prop} (hQ : ∀ a, Q a → Q' a) :
    Yields low Q' x := by
  cases x with
  | error e => exact fun he => hlow (hx he)
  | ok a => exact hQ a hx

theorem Yields.of_ok (h : Yields low Q x) (hx : x = .ok a) : Q a := by
  subst hx
  exact h

theorem yields_pure (h : Q a) : Yields low Q (pure a : Except Fail α) := h

theorem yields_panic (msg : String) : Yields low Q (.error (.panic msg)) := by
  simp [Yields]

end Yields

theorem parseredirs_spec (h0 : (0 : UInt8) ∉ s) :
    Yields (n ≤ s.length)
      (fun r => r.2 <:+ s ∧ (∀ x ∈ r.1, x.2.In s) ∧ ∃ ts, lex s = ts ++ lex r.2 ∧ Redirs ts (r.1.map Redir.text))
      (parseredirs n s) := by
  induction n generalizing s with
  | zero => exact fun _ => Nat.zero_le _
  | succ n ih =>
    rw [parseredirs]
    by_cases hp : (peek s [60, 62]).1 = true
    · obtain ⟨t, ⟨d, hd, hlead⟩, hs, hcode, hsuffix, hlt⟩ := gettoken_peek h0 (by decide) hp
      simp only [hp, if_true]
      split
      · exact yields_panic _
      · rename_i hfile
        have h01 := mt hsuffix.mem h0
        obtain ⟨hs2, hsuffix2, hlt2, hin⟩ := gettoken_word h01 (not_not.1 hfile)
        refine (ih (mt hsuffix2.mem h01)).bind (by omega) ?_
        rintro ⟨rs, s'⟩ ⟨hsuffix3, hwords, ts, hts, hredirs⟩
        refine yields_pure ⟨(hsuffix3.trans hsuffix2).trans hsuffix, ?_,
          t :: .word (gettoken (gettoken (peek s [60, 62]).2).ps).word.text :: ts, ?_, ?_⟩
        · exact List.forall_mem_cons.2 ⟨hin.mono hsuffix, fun r hr => (hwords r hr).mono (hsuffix2.trans hsuffix)⟩
        · rw [hs, hs2, hts]
          rfl
        · rw [map_cons, Redir.text, hcode]
          exact .cons (redir_of_lead hd hlead) hredirs
    · simp only [hp]
      exact yields_pure ⟨peek_suffix s _, by simp, [], (lex_peek s _).symm, .nil⟩

theorem parseargs_spec {argc : Nat} (h0 : (0 : UInt8) ∉ s) (hargc : argc < MAXARGS) :
    Yields (n ≤ s.length)
      (fun r => r.2.2 <:+ s ∧ (∀ w ∈ r.1, w.In s) ∧ (∀ x ∈ r.2.1, x.2.In s) ∧ argc + r.1.length < MAXARGS ∧
        ∃ ts, lex s = ts ++ lex r.2.2 ∧ Args ts (r.1.map Word.text) (r.2.1.map Redir.text))
      (parseargs n argc s) := by
  induction n generalizing argc s with
  | zero => exact fun _ => Nat.zero_le _
  | succ n ih =>
    have hskip := peek_suffix s [124, 41, 38, 59]
    have hlex := lex_peek s [124, 41, 38, 59]
    have hle := hskip.length_le
    have h01 := mt hskip.mem h0
    rw [parseargs]
    simp only
    split
    · exact yields_pure ⟨hskip, by simp, by simp, hargc, [], hlex.symm, .nil⟩
    · split
      · rename_i hzero
        obtain ⟨hnil, hps⟩ := gettoken_zero h01 hzero
        rw [hps]
        refine yields_pure ⟨List.nil_suffix, by simp, by simp, hargc, [], ?_, .nil⟩
        rw [← hlex, hnil, lex_nil]
        rfl
      · split
        · exact yields_panic _
        · rename_i hword
          split
          · exact yields_panic _
          · rename_i hroom
            obtain ⟨hs, hsuffix, hlt, hin⟩ := gettoken_word h01 (not_not.1 hword)
            have h02 := mt hsuffix.mem h01
            have hall := hsuffix.trans hskip
            refine (parseredirs_spec h02).bind (by omega) ?_
            rintro ⟨rs1, s1⟩ ⟨hsuffix1, hin1, ts1, hts1, hd1⟩
            have hle1 := hsuffix1.length_le
            refine (ih (mt hsuffix1.mem h02) (Nat.lt_of_not_le hroom)).bind (by simp only at *; omega) ?_
            rintro ⟨ws2, rs2, s2⟩ ⟨hsuffix2, hin2, hin3, hlen, ts2, hts2, hd2⟩
            refine yields_pure ⟨(hsuffix2.trans hsuffix1).trans hall, ?_, ?_, ?_,
              .word (gettoken (peek s [124, 41, 38, 59]).2).word.text :: (ts1 ++ ts2), ?_, ?_⟩
            · exact List.forall_mem_cons.2 ⟨hin.mono hskip, fun w hw => (hin2 w hw).mono (hsuffix1.trans hall)⟩
            · exact List.forall_mem_append.2
                ⟨fun r hr => (hin1 r hr).mono hall, fun r hr => (hin3 r hr).mono (hsuffix1.trans hall)⟩
            · simp only [length_cons] at hlen ⊢
              omega
            · rw [← hlex, hs, hts1, hts2]
              simp
            · rw [map_cons, map_append]
              exact .cons hd1 hd2

theorem parseback_spec (cmd : Cmd Word) (h0 : (0 : UInt8) ∉ s) :
    Yields (n ≤ s.length)
      (fun r => r.2 <:+ s ∧ ∃ k, r.1 = Cmd.back^[k] cmd ∧ lex s = List.replicate k .amp ++ lex r.2)
      (parseback n cmd s) := by
  induction n generalizing cmd s with
  | zero => exact fun _ => Nat.zero_le _
  | succ n ih =>
    rw [parseback]
    by_cases hp : (peek s [38]).1 = true
    · obtain ⟨hs, hsuffix, hlt⟩ := gettoken_peek_one (d := 38) .amp h0 rfl (by decide) hp
      simp only [hp, if_true]
      refine (ih (.back cmd) (mt hsuffix.mem h0)).mono (by omega) ?_
      rintro r ⟨hsuffix', k, hk, hs'⟩
      refine ⟨hsuffix'.trans hsuffix, k + 1, ?_, ?_⟩
      · rw [hk, Function.iterate_succ_apply]
      · rw [hs, hs', List.replicate_succ, cons_append]
    · simp only [hp]
      exact yields_pure ⟨peek_suffix s _, 0, rfl, (lex_peek s _).symm⟩

/-- What is known of a command that the parser has returned. -/
structure Parsed (A : NT) (s : List UInt8) (r : Cmd Word × List UInt8) : Prop where
  suffix : r.2 <:+ s
  words : ∀ w ∈ r.1.words, w.In s
  derives : ∃ ts, lex s = ts ++ lex r.2 ∧ Derives A ts (r.1.map Word.text)

theorem map_back (k : Nat) (cmd : Cmd Word) :
    (Cmd.back^[k] cmd).map Word.text = Cmd.back^[k] (cmd.map Word.text) ∧ (Cmd.back^[k] cmd).words = cmd.words := by
  induction k generalizing cmd with
  | zero => exact ⟨rfl, rfl⟩
  | succ k ih => aesop

def NT.parse : NT → Nat → List UInt8 → Except Fail (Cmd Word × List UInt8)
  | .line => parseline
  | .pipe => parsepipe
  | .exec => parseexec
  | .block => parseblock

/-- The calls before one byte is taken: `parseline`, `parsepipe`, `parseexec`, `parseblock`. -/
def NT.height : NT → Nat
  | .line => 4
  | .pipe => 3
  | .exec => 2
  | .block => 1

/-- The parser of `A` returns what derives from `A`, and with four calls for each byte it does not run out of them. -/
def NT.Sound (A : NT) (n : Nat) : Prop :=
  ∀ {s}, (0 : UInt8) ∉ s → Yields (n < 4 * s.length + A.height) (Parsed A s) (A.parse n s)

theorem parseline_sound (hpipe : NT.pipe.Sound n) (hline : NT.line.Sound n) : NT.line.Sound (n + 1) := by
  intro s h0
  simp only [NT.Sound, NT.height] at hpipe hline ⊢
  refine (hpipe h0).bind (by omega) ?_
  rintro ⟨cmd1, s1⟩ p1
  obtain ⟨ts1, hts1, hd1⟩ := p1.derives
  have hle1 : s1.length ≤ s.length := p1.suffix.length_le
  refine (parseback_spec cmd1 (mt p1.suffix.mem h0)).bind (by simp only; omega) ?_
  rintro ⟨cmd2, s2⟩ ⟨hsuffix2, k, rfl, hts2⟩
  have hs2 : s2 <:+ s := hsuffix2.trans p1.suffix
  have hle2 := hs2.length_le
  have h02 := mt hs2.mem h0
  obtain ⟨hmap, hwords⟩ := map_back k cmd1
  by_cases hp : (peek s2 [59]).1 = true
  · simp only [hp, if_true]
    obtain ⟨hts3, hsuffix3, hlt3⟩ := gettoken_peek_one (d := 59) .semi h02 rfl (by decide) hp
    refine (hline (mt hsuffix3.mem h02)).bind (by omega) ?_
    rintro ⟨cmd4, s4⟩ p4
    obtain ⟨ts4, hts4, hd4⟩ := p4.derives
    refine yields_pure
      ⟨(p4.suffix.trans hsuffix3).trans hs2, ?_, ts1 ++ List.replicate k .amp ++ .semi :: ts4, ?_, ?_⟩
    · exact List.forall_mem_append.2
        ⟨fun w hw => p1.words w (hwords ▸ hw), fun w hw => (p4.words w hw).mono (hsuffix3.trans hs2)⟩
    · rw [hts1, hts2, hts3, hts4]
      simp
    · rw [Cmd.map, hmap]
      exact .list k hd1 hd4
  · simp only [hp]
    refine yields_pure
      ⟨(peek_suffix s2 _).trans hs2, fun w hw => p1.words w (hwords ▸ hw), ts1 ++ List.replicate k .amp, ?_, ?_⟩
    · rw [hts1, hts2, lex_peek, append_assoc]
    · rw [hmap]
      exact .line k hd1

theorem parsepipe_sound (hexec : NT.exec.Sound n) (hpipe : NT.pipe.Sound n) : NT.pipe.Sound (n + 1) := by
  intro s h0
  simp only [NT.Sound, NT.height] at hexec hpipe ⊢
  refine (hexec h0).bind (by omega) ?_
  rintro ⟨cmd1, s1⟩ p1
  obtain ⟨ts1, hts1, hd1⟩ := p1.derives
  have hle1 : s1.length ≤ s.length := p1.suffix.length_le
  have h01 : (0 : UInt8) ∉ s1 := mt p1.suffix.mem h0
  by_cases hp : (peek s1 [124]).1 = true
  · simp only [hp, if_true]
    obtain ⟨hts2, hsuffix2, hlt2⟩ := gettoken_peek_one (d := 124) .bar h01 rfl (by decide) hp
    refine (hpipe (mt hsuffix2.mem h01)).bind (by omega) ?_
    rintro ⟨cmd3, s3⟩ p3
    obtain ⟨ts3, hts3, hd3⟩ := p3.derives
    refine yields_pure ⟨(p3.suffix.trans hsuffix2).trans p1.suffix, ?_, _, ?_, .pipe hd1 hd3⟩
    · exact List.forall_mem_append.2 ⟨p1.words, fun w hw => (p3.words w hw).mono (hsuffix2.trans p1.suffix)⟩
    · rw [hts1, hts2, hts3]
      simp
  · simp only [hp]
    refine yields_pure ⟨(peek_suffix s1 _).trans p1.suffix, p1.words, _, ?_, .single hd1⟩
    rw [hts1, lex_peek]

theorem parseblock_sound (hline : NT.line.Sound n) : NT.block.Sound (n + 1) := by
  intro s h0
  simp only [NT.Sound, NT.height] at hline ⊢
  rw [NT.parse, parseblock]
  by_cases hp : (peek s [40]).1 = true
  · simp only [hp, not_true_eq_false, if_false]
    obtain ⟨hts1, hsuffix1, hlt1⟩ := gettoken_peek_one (d := 40) .lpar h0 rfl (by decide) hp
    refine (hline (mt hsuffix1.mem h0)).bind (by omega) ?_
    rintro ⟨cmd2, s2⟩ p2
    obtain ⟨ts2, hts2, hd2⟩ := p2.derives
    have hs2 : s2 <:+ s := p2.suffix.trans hsuffix1
    have hle2 : s2.length ≤ _ := p2.suffix.length_le
    have h02 := mt hs2.mem h0
    by_cases hp2 : (peek s2 [41]).1 = true
    · simp only [hp2, not_true_eq_false, if_false]
      obtain ⟨hts3, hsuffix3, hlt3⟩ := gettoken_peek_one (d := 41) .rpar h02 rfl (by decide) hp2
      refine (parseredirs_spec (mt hsuffix3.mem h02)).bind (by omega) ?_
      rintro ⟨rs, s4⟩ ⟨hsuffix4, hin4, ts4, hts4, hd4⟩
      refine yields_pure ⟨(hsuffix4.trans hsuffix3).trans hs2, ?_, .lpar :: ts2 ++ .rpar :: ts4, ?_, ?_⟩
      · rw [words_redircmd, List.forall_mem_append, List.forall_mem_map]
        exact ⟨fun w hw => (p2.words w hw).mono hsuffix1, fun r hr => (hin4 r hr).mono (hsuffix3.trans hs2)⟩
      · rw [hts1, hts2, hts3, hts4]
        simp
      · rw [map_redircmd]
        exact .paren hd2 hd4
    · simp only [hp2]
      exact yields_panic _
  · simp only [hp]
    exact yields_panic _

theorem parseexec_sound (hblock : NT.block.Sound n) : NT.exec.Sound (n + 1) := by
  intro s h0
  simp only [NT.Sound, NT.height] at hblock ⊢
  rw [NT.parse, parseexec]
  have hskip := peek_suffix s [40]
  have hle := hskip.length_le
  have h01 := mt hskip.mem h0
  by_cases hp : (peek s [40]).1 = true
  · simp only [hp, if_true]
    refine (hblock h01).mono (by omega) fun r p => ?_
    obtain ⟨ts, hts, hd⟩ := p.derives
    exact ⟨p.suffix.trans hskip, fun w hw => (p.words w hw).mono hskip, ts, lex_peek s [40] ▸ hts, .block hd⟩
  · simp only [hp]
    refine (parseredirs_spec h01).bind (by omega) ?_
    rintro ⟨rs, s2⟩ ⟨hsuffix2, hin2, ts2, hts2, hd2⟩
    have hs2 := hsuffix2.trans hskip
    have hle2 := hs2.length_le
    refine (parseargs_spec (mt hs2.mem h0) (by decide)).bind (by simp only at *; omega) ?_
    rintro ⟨ws, rs', s3⟩ ⟨hsuffix3, hin3, hin3', hlen, ts3, hts3, hd3⟩
    refine yields_pure ⟨hsuffix3.trans hs2, ?_, ts2 ++ ts3, ?_, ?_⟩
    · rw [words_redircmd, List.forall_mem_append, List.forall_mem_map, List.forall_mem_append]
      exact ⟨fun w hw => (hin3 w hw).mono hs2, fun r hr => (hin2 r hr).mono hskip, fun r hr => (hin3' r hr).mono hs2⟩
    · rw [← lex_peek s [40], hts2, hts3, append_assoc]
    · rw [map_redircmd, map_append]
      refine .simple hd2 hd3 ?_
      rw [List.length_map]
      exact Nat.le_sub_one_of_lt (Nat.zero_add ws.length ▸ hlen)

theorem parse_sound (A : NT) (n : Nat) : A.Sound n := by
  induction n generalizing A with
  | zero =>
    intro s _
    cases A <;> exact fun _ => Nat.succ_pos _
  | succ n ih =>
    cases A with
    | line => exact parseline_sound (ih .pipe) (ih .line)
    | pipe => exact parsepipe_sound (ih .exec) (ih .pipe)
    | exec => exact parseexec_sound (ih .block)
    | block => exact parseblock_sound (ih .line)

/-! ## What is derived is returned -/

/-- There are no more tokens, or the next one starts with one of the bytes. -/
def Follow (toks : List UInt8) (rest : List Tok) : Prop := rest = [] ∨ Leads toks rest

theorem Follow.mono {toks toks' : List UInt8} (h : Follow toks rest)
    (hsub : toks ⊆ toks') : Follow toks' rest := by
  rcases h with h | ⟨t, ht, d, hd, hlead⟩
  · exact .inl h
  · exact .inr ⟨t, ht, d, hsub hd, hlead⟩

theorem Follow.not_leads {toks toks' : List UInt8} (h : Follow toks rest)
    (hdisj : toks.any (· ∈ toks') = false) : ¬ Leads toks' rest := by
  rintro ⟨t, ht, d, hd, hlead⟩
  rcases h with rfl | ⟨t', ht', d', hd', hlead'⟩
  · cases ht
  · cases Option.mem_unique ht ht'
    cases Option.some.inj (hlead.symm.trans hlead')
    exact List.any_eq_false.1 hdisj d hd' (decide_eq_true hd)

theorem leads_cons {toks : List UInt8} {t : Tok} {d : UInt8} (rest : List Tok) (ht : t.lead = some d)
    (hd : d ∈ toks) : Leads toks (t :: rest) :=
  ⟨t, rfl, d, hd, ht⟩

theorem not_leads_word (toks : List UInt8) (w : List UInt8) (rest : List Tok) : ¬ Leads toks (.word w :: rest) := by
  rintro ⟨t, ht, d, -, hlead⟩
  cases ht
  cases hlead

theorem peek_take (toks : List UInt8) {t : Tok} {d : UInt8} (h0 : (0 : UInt8) ∉ s)
    (htoks : toks ⊆ symbols) (hs : lex s = t :: ts) (ht : t.lead = some d) (hd : d ∈ toks) :
    (peek s toks).1 = true ∧ (gettoken (peek s toks).2).ret = t.code ∧
      lex (gettoken (peek s toks).2).ps = ts ∧ (0 : UInt8) ∉ (gettoken (peek s toks).2).ps ∧
      (gettoken (peek s toks).2).ps.length < s.length := by
  have hp : (peek s toks).1 = true := (peek_fst htoks).2 (hs ▸ leads_cons ts ht hd)
  obtain ⟨t', -, hs', hcode, hsuffix, hlt⟩ := gettoken_peek h0 htoks hp
  rw [hs'] at hs
  cases hs
  exact ⟨hp, hcode, rfl, mt hsuffix.mem h0, hlt⟩

theorem peek_false (toks : List UInt8) (htoks : toks ⊆ symbols) (hs : lex s = rest)
    (h : ¬ Leads toks rest) : (peek s toks).1 = false :=
  Bool.eq_false_iff.2 fun hp => h (hs ▸ (peek_fst htoks).1 hp)

theorem parseredirs_complete (h : Redirs ts rs)
    (h0 : (0 : UInt8) ∉ s) (hn : s.length < n)
    (hs : lex s = ts ++ rest) (hrest : ¬ Leads [60, 62] rest) :
    ∃ rs' s', parseredirs n s = .ok (rs', s') ∧ rs'.map Redir.text = rs ∧ lex s' = rest := by
  induction h generalizing n s with
  | nil =>
    obtain ⟨m, rfl⟩ := Nat.exists_eq_add_of_lt hn
    rw [parseredirs]
    simp only [peek_false [60, 62] (by decide) hs hrest]
    exact ⟨[], _, rfl, rfl, (lex_peek s _).trans hs⟩
  | @cons t w ts rs ht _ ih =>
    obtain ⟨m, rfl⟩ := Nat.exists_eq_add_of_lt hn
    obtain ⟨d, hd, hlead⟩ : ∃ d ∈ [(60 : UInt8), 62], t.lead = some d := by
      rcases ht with rfl | rfl | rfl <;> exact ⟨_, by decide, rfl⟩
    obtain ⟨hp, hcode, hs1, h01, hlt1⟩ := peek_take _ h0 (by decide) hs hlead hd
    obtain ⟨hret, hs2, hsuffix2, hlt2, hword⟩ := gettoken_cons h01 hs1
    obtain ⟨rs', s', hrs', htext, hs'⟩ :=
      ih (n := s.length + m) (mt hsuffix2.mem h01) (by omega) hs2
    have hret97 : (gettoken (gettoken (peek s [60, 62]).2).ps).ret = 97 := hret
    rw [parseredirs]
    simp only [hp, if_true, hret97, not_true_eq_false, if_false, ne_eq, hrs']
    refine ⟨_, s', rfl, ?_, hs'⟩
    rw [map_cons, htext, Redir.text, hcode, (hword w rfl).1]

theorem Args.not_leads {ws : List (List UInt8)}
    (h : Args ts ws rs) (hrest : Follow [124, 41, 38, 59] rest) :
    ¬ Leads [60, 62] (ts ++ rest) := by
  cases h with
  | nil => exact hrest.not_leads (by decide)
  | cons _ _ => exact not_leads_word _ _ _

theorem parseargs_complete {ws : List (List UInt8)}
    (h : Args ts ws rs) {n argc : Nat} (h0 : (0 : UInt8) ∉ s)
    (hn : s.length < n) (hargc : argc + ws.length < MAXARGS) (hs : lex s = ts ++ rest)
    (hrest : Follow [124, 41, 38, 59] rest) :
    ∃ ws' rs' s', parseargs n argc s = .ok (ws', rs', s') ∧ ws'.map Word.text = ws ∧
      rs'.map Redir.text = rs ∧ lex s' = rest := by
  induction h generalizing n argc s with
  | nil =>
    obtain ⟨m, rfl⟩ := Nat.exists_eq_add_of_lt hn
    rw [parseargs]
    rcases hrest with rfl | hlead
    · -- the line ends here, which `gettoken` finds
      have hnil : lex (peek s [124, 41, 38, 59]).2 = [] := (lex_peek s _).trans hs
      obtain ⟨hret, hps⟩ := gettoken_nil hnil
      have hp : (peek s [124, 41, 38, 59]).1 = false := by
        refine peek_false _ (by decide) hs ?_
        rintro ⟨t, ht, -⟩
        cases ht
      simp only [hp, hret, hps]
      exact ⟨[], [], [], rfl, rfl, rfl, lex_nil⟩
    · have hp : (peek s [124, 41, 38, 59]).1 = true := (peek_fst (by decide)).2 (hs ▸ hlead)
      simp only [hp]
      exact ⟨[], [], _, rfl, rfl, rfl, (lex_peek s _).trans hs⟩
  | @cons w ts rs ts' ws rs' hredirs hargs ih =>
    obtain ⟨m, rfl⟩ := Nat.exists_eq_add_of_lt hn
    rw [cons_append, append_assoc] at hs
    have hp : (peek s [124, 41, 38, 59]).1 = false := peek_false _ (by decide) hs (not_leads_word _ _ _)
    have hsuffix0 := peek_suffix s [124, 41, 38, 59]
    have h01 := mt hsuffix0.mem h0
    obtain ⟨hret, hs1, hsuffix1, hlt1, hword⟩ := gettoken_cons h01 ((lex_peek s _).trans hs)
    have hle := hsuffix0.length_le
    have h02 := mt hsuffix1.mem h01
    obtain ⟨rs1, s1, hrs1, htext1, hs2⟩ :=
      parseredirs_complete hredirs (n := s.length + m) h02 (by omega) hs1 (hargs.not_leads hrest)
    obtain ⟨hsuffix2, -⟩ := (parseredirs_spec h02).of_ok hrs1
    have hle2 := hsuffix2.length_le
    rw [length_cons] at hargc
    obtain ⟨ws2, rs2, s2, hws2, hwtext, htext2, hs3⟩ :=
      ih (n := s.length + m) (mt hsuffix2.mem h02) (by omega)
        (by omega : argc + 1 + ws.length < MAXARGS) hs2
    rw [parseargs]
    have hroom : ¬ argc + 1 ≥ MAXARGS := by omega
    simp only [hp, hret, Tok.code, hroom, if_false, ne_eq, not_true_eq_false, hrs1]
    refine ⟨_, _, s2, by simp [hws2, bind, Except.bind]; rfl, ?_, ?_, hs3⟩
    · rw [map_cons, hwtext, (hword w rfl).1]
    · rw [map_append, htext1, htext2]

theorem parseback_complete {k n : Nat} (cmd : Cmd Word)
    (h0 : (0 : UInt8) ∉ s) (hn : s.length < n) (hs : lex s = List.replicate k .amp ++ rest)
    (hrest : ¬ Leads [38] rest) :
    ∃ s', parseback n cmd s = .ok (Cmd.back^[k] cmd, s') ∧ lex s' = rest := by
  induction k generalizing n s cmd with
  | zero =>
    obtain ⟨m, rfl⟩ := Nat.exists_eq_add_of_lt hn
    rw [parseback]
    simp only [peek_false [38] (by decide) hs hrest]
    exact ⟨_, rfl, (lex_peek s _).trans hs⟩
  | succ k ih =>
    obtain ⟨m, rfl⟩ := Nat.exists_eq_add_of_lt hn
    obtain ⟨hp, -, hs1, h01, hlt1⟩ := peek_take [38] h0 (by decide) hs rfl (mem_singleton.2 rfl)
    rw [parseback]
    simp only [hp, if_true]
    exact ih (.back cmd) h01 (by omega) hs1

def NT.follow : NT → List UInt8
  | .line => [41]
  | .pipe => [41, 38, 59]
  | .exec => [124, 41, 38, 59]
  | .block => [124, 41, 38, 59]

theorem follow_amps (k : Nat) (h : Follow [41, 59] rest) :
    Follow [41, 38, 59] (List.replicate k .amp ++ rest) := by
  cases k with
  | zero => exact h.mono (by decide)
  | succ k => exact .inr (leads_cons _ rfl (by decide))

theorem not_leads_simple {ts ts' : List Tok} {rs rs' : List (Redir (List UInt8))} {ws : List (List UInt8)}
    (hrs : Redirs ts rs) (hargs : Args ts' ws rs')
    (hrest : Follow [124, 41, 38, 59] rest) : ¬ Leads [40] (ts ++ (ts' ++ rest)) := by
  cases hrs with
  | cons ht _ =>
    rintro ⟨t, hhead, d, hd, hlead⟩
    cases hhead
    cases mem_singleton.1 hd
    rcases ht with rfl | rfl | rfl <;> exact absurd hlead (by decide)
  | nil =>
    cases hargs with
    | nil => exact hrest.not_leads (by decide)
    | cons _ _ => exact not_leads_word _ _ _

/-- The command comes back, and the tokens after it are left. -/
def Finds (A : NT) (n : Nat) (s : List UInt8) (c : Cmd (List UInt8)) (rest : List Tok) : Prop :=
  ∃ cmd s', A.parse n s = .ok (cmd, s') ∧ cmd.map Word.text = c ∧ lex s' = rest

theorem parseline_begins {n k : Nat} {c : Cmd (List UInt8)}
    (h0 : (0 : UInt8) ∉ s) (hn : s.length < n) (hrest : Follow [41, 59] rest)
    (hpipe : Finds .pipe n s c (List.replicate k .amp ++ rest)) :
    ∃ cmd1 s1 cmd2 s2, parsepipe n s = .ok (cmd1, s1) ∧ parseback n cmd1 s1 = .ok (cmd2, s2) ∧
      s2 <:+ s ∧ cmd2.map Word.text = Cmd.back^[k] c ∧ lex s2 = rest := by
  obtain ⟨cmd, s1, h1, hcmd, hs1⟩ := hpipe
  have p1 := (parse_sound .pipe n h0).of_ok h1
  have h01 := mt p1.suffix.mem h0
  obtain ⟨s2, h2, hs2⟩ := parseback_complete (n := n) cmd h01
    (Nat.lt_of_le_of_lt p1.suffix.length_le hn) hs1 (hrest.not_leads (by decide))
  obtain ⟨hsuffix2, -⟩ := (parseback_spec cmd h01).of_ok h2
  refine ⟨cmd, s1, _, s2, h1, h2, hsuffix2.trans p1.suffix, ?_, hs2⟩
  rw [(map_back k cmd).1, hcmd]

theorem exists_call {A : NT} {k n : Nat} (h : k + A.height ≤ n) : ∃ m, n = m + 1 := by
  have hpos : 0 < A.height := by cases A <;> decide
  exact Nat.exists_eq_add_one.2 (by omega)

theorem parse_complete {A : NT} {c : Cmd (List UInt8)} (h : Derives A ts c)
    (h0 : (0 : UInt8) ∉ s) (hn : 4 * s.length + A.height ≤ n)
    (hs : lex s = ts ++ rest) (hrest : Follow A.follow rest) : Finds A n s c rest := by
  induction h generalizing n s rest with
  | line k _ ih =>
    obtain ⟨n, rfl⟩ := exists_call hn
    simp only [NT.height] at hn ih
    rw [append_assoc] at hs
    have hfollow : Follow [41, 59] rest := hrest.mono (by decide)
    obtain ⟨cmd1, s1, cmd2, s2, h1, h2, -, hcmd, hs2⟩ :=
      parseline_begins (n := n) h0 (by omega) hfollow (ih h0 (by omega) hs (follow_amps k hfollow))
    have hp := peek_false [59] (by decide) hs2 (hrest.not_leads (by decide))
    refine ⟨cmd2, (peek s2 [59]).2, ?_, hcmd, (lex_peek _ _).trans hs2⟩
    refine bind_eq_ok_iff.2 ⟨_, h1, bind_eq_ok_iff.2 ⟨_, h2, ?_⟩⟩
    simp only [hp]
    rfl
  | @list _ _ ts' _ k _ _ ih1 ih2 =>
    obtain ⟨n, rfl⟩ := exists_call hn
    simp only [NT.height] at hn ih1 ih2
    rw [append_assoc, append_assoc, cons_append] at hs
    have hfollow : Follow [41, 59] (.semi :: (ts' ++ rest)) := .inr (leads_cons _ rfl (by decide))
    obtain ⟨cmd1, s1, cmd2, s2, h1, h2, hsuffix2, hcmd, hs2⟩ :=
      parseline_begins (n := n) h0 (by omega) hfollow (ih1 h0 (by omega) hs (follow_amps k hfollow))
    have h02 := mt hsuffix2.mem h0
    have hle2 := hsuffix2.length_le
    obtain ⟨hp, -, hs3, h03, hlt3⟩ := peek_take [59] h02 (by decide) hs2 rfl (mem_singleton.2 rfl)
    obtain ⟨cmd4, s4, h4, hcmd4, hs4⟩ := ih2 h03 (n := n) (by omega) hs3 hrest
    refine ⟨.list cmd2 cmd4, s4, ?_, by rw [Cmd.map, hcmd, hcmd4], hs4⟩
    refine bind_eq_ok_iff.2 ⟨_, h1, bind_eq_ok_iff.2 ⟨_, h2, ?_⟩⟩
    simp only [hp, if_true]
    exact bind_eq_ok_iff.2 ⟨_, h4, rfl⟩
  | single _ ih =>
    obtain ⟨n, rfl⟩ := exists_call hn
    simp only [NT.height] at hn ih
    obtain ⟨cmd1, s1, h1, hcmd, hs1⟩ := ih h0 (n := n) (by omega) hs (hrest.mono (by decide))
    have hp := peek_false [124] (by decide) hs1 (hrest.not_leads (by decide))
    refine ⟨cmd1, (peek s1 [124]).2, ?_, hcmd, (lex_peek _ _).trans hs1⟩
    refine bind_eq_ok_iff.2 ⟨_, h1, ?_⟩
    simp only [hp]
    rfl
  | pipe _ _ ih1 ih2 =>
    obtain ⟨n, rfl⟩ := exists_call hn
    simp only [NT.height] at hn ih1 ih2
    rw [append_assoc, cons_append] at hs
    obtain ⟨cmd1, s1, h1, hcmd, hs1⟩ := ih1 h0 (n := n) (by omega) hs (.inr (leads_cons _ rfl (by decide)))
    have p1 := (parse_sound .exec n h0).of_ok h1
    have h01 : (0 : UInt8) ∉ s1 := mt p1.suffix.mem h0
    have hle1 : s1.length ≤ s.length := p1.suffix.length_le
    obtain ⟨hp, -, hs2, h02, hlt2⟩ := peek_take [124] h01 (by decide) hs1 rfl (mem_singleton.2 rfl)
    obtain ⟨cmd3, s3, h3, hcmd3, hs3⟩ := ih2 h02 (n := n) (by omega) hs2 hrest
    refine ⟨.pipe cmd1 cmd3, s3, ?_, by rw [Cmd.map, hcmd, hcmd3], hs3⟩
    refine bind_eq_ok_iff.2 ⟨_, h1, ?_⟩
    simp only [hp, if_true]
    exact bind_eq_ok_iff.2 ⟨_, h3, rfl⟩
  | block hblock ih =>
    obtain ⟨n, rfl⟩ := exists_call hn
    simp only [NT.height] at hn ih
    have hskip := peek_suffix s [40]
    have hle := hskip.length_le
    obtain ⟨cmd1, s1, h1, hcmd, hs1⟩ := ih (mt hskip.mem h0) (n := n) (by omega)
      ((lex_peek s [40]).trans hs) hrest
    refine ⟨cmd1, s1, ?_, hcmd, hs1⟩
    have hp : (peek s [40]).1 = true := by
      refine (peek_fst (by decide)).2 ?_
      rw [hs]
      cases hblock with
      | paren _ _ => exact leads_cons _ rfl (by decide)
    rw [NT.parse, parseexec]
    simp only [hp, if_true]
    exact h1
  | @simple _ _ _ ws _ hrs hargs hlen =>
    obtain ⟨n, rfl⟩ := exists_call hn
    simp only [NT.height] at hn
    rw [append_assoc] at hs
    have hp := peek_false [40] (by decide) hs (not_leads_simple hrs hargs hrest)
    have hskip := peek_suffix s [40]
    have hle := hskip.length_le
    have h01 := mt hskip.mem h0
    obtain ⟨rs2, s2, h2, htext2, hs2⟩ := parseredirs_complete hrs (n := n) h01 (by omega)
      ((lex_peek s [40]).trans hs) (hargs.not_leads hrest)
    obtain ⟨hsuffix2, -⟩ := (parseredirs_spec h01).of_ok h2
    have hle2 := hsuffix2.length_le
    have hargc : 0 + ws.length < MAXARGS := by
      rw [Nat.zero_add]
      exact Nat.lt_of_le_sub_one (by decide) hlen
    obtain ⟨ws3, rs3, s3, h3, hws3, htext3, hs3⟩ := parseargs_complete hargs (n := n)
      (mt hsuffix2.mem h01) (by omega) hargc hs2 hrest
    refine ⟨(rs2 ++ rs3).foldl redircmd (.exec ws3), s3, ?_, ?_, hs3⟩
    · rw [NT.parse, parseexec]
      simp only [hp]
      exact bind_eq_ok_iff.2 ⟨_, h2, bind_eq_ok_iff.2 ⟨_, h3, rfl⟩⟩
    · rw [map_redircmd, map_append, htext2, htext3, Cmd.map, hws3]
  | paren _ hrs ih =>
    obtain ⟨n, rfl⟩ := exists_call hn
    simp only [NT.height] at hn ih
    rw [cons_append, cons_append, append_assoc, cons_append] at hs
    obtain ⟨hp, -, hs1, h01, hlt1⟩ := peek_take [40] h0 (by decide) hs rfl (mem_singleton.2 rfl)
    obtain ⟨cmd2, s2, h2, hcmd, hs2⟩ := ih h01 (n := n) (by omega) hs1 (.inr (leads_cons _ rfl (by decide)))
    have p2 := (parse_sound .line n h01).of_ok h2
    have hle2 : s2.length ≤ _ := p2.suffix.length_le
    have h02 : (0 : UInt8) ∉ s2 := mt p2.suffix.mem h01
    obtain ⟨hp2, -, hs3, h03, hlt3⟩ := peek_take [41] h02 (by decide) hs2 rfl (mem_singleton.2 rfl)
    obtain ⟨rs4, s4, h4, htext4, hs4⟩ := parseredirs_complete hrs (n := n) h03 (by omega) hs3
      (hrest.not_leads (by decide))
    refine ⟨rs4.foldl redircmd cmd2, s4, ?_, by rw [map_redircmd, htext4, hcmd], hs4⟩
    rw [NT.parse, parseblock]
    simp only [hp, not_true_eq_false, if_false]
    refine bind_eq_ok_iff.2 ⟨_, h2, ?_⟩
    simp only [hp2, not_true_eq_false, if_false]
    exact bind_eq_ok_iff.2 ⟨_, h4, rfl⟩

/-! ## The strings of the command -/

theorem nulterminate_eq (n : Nat) (cmd : Cmd Word) (buf : List UInt8) :
    nulterminate n cmd buf = cmd.words.foldl (fun buf w => buf.set (n - w.eq.length) 0) buf := by
  induction cmd generalizing buf with
  | exec argv => rfl
  | redir cmd file mode fd ih =>
    rw [nulterminate, ih, Cmd.words, List.foldl_append]
    rfl
  | pipe left right ihl ihr | list left right ihl ihr => rw [nulterminate, ihl, ihr, Cmd.words, List.foldl_append]
  | back cmd ih => exact ih buf

theorem getElem?_foldl_set_of_ne (n : Nat) (ws : List Word) (buf : List UInt8) {i : Nat}
    (hi : ∀ w ∈ ws, n - w.eq.length ≠ i) :
    (ws.foldl (fun buf w => buf.set (n - w.eq.length) 0) buf)[i]? = buf[i]? := by
  induction ws generalizing buf with
  | nil => rfl
  | cons w ws ih => simp_all

theorem getElem?_foldl_set (n : Nat) (ws : List Word) (buf : List UInt8) {i : Nat}
    (hi : ∃ w ∈ ws, n - w.eq.length = i) (hlt : i < buf.length) :
    (ws.foldl (fun buf w => buf.set (n - w.eq.length) 0) buf)[i]? = some 0 := by
  induction ws generalizing buf with
  | nil =>
    obtain ⟨w, hw, -⟩ := hi
    cases hw
  | cons w ws ih =>
    rw [foldl_cons]
    by_cases hlater : ∃ w ∈ ws, n - w.eq.length = i
    · exact ih _ hlater (by rwa [List.length_set])
    · obtain ⟨w', hw', hend⟩ := hi
      rcases mem_cons.1 hw' with rfl | hw'
      · rw [getElem?_foldl_set_of_ne n ws _ fun w hw h => hlater ⟨w, hw, h⟩, hend, List.getElem?_set_self hlt]
      · exact absurd ⟨w', hw', hend⟩ hlater

theorem takeWhile_ne_zero {l t : List UInt8} (ht : (0 : UInt8) ∉ t)
    (hl : ∀ j, j < t.length → l[j]? = t[j]?) (hend : l[t.length]? = some 0) :
    l.takeWhile (· ≠ 0) = t := by
  induction t generalizing l with
  | nil =>
    cases l with
    | nil => rfl
    | cons c l =>
      cases hend
      rfl
  | cons d t ih =>
    cases l with
    | nil =>
      cases hend
    | cons c l =>
      have hcd : c = d := by simpa using hl 0 (Nat.zero_lt_succ _)
      subst hcd
      have hc : c ≠ 0 := fun h => ht (h ▸ List.mem_cons_self)
      rw [List.takeWhile_cons_of_pos (by simpa using hc),
        ih (fun hmem => ht (List.mem_cons_of_mem _ hmem)) (fun j hj => hl (j + 1) (Nat.succ_lt_succ hj)) hend]

theorem getElem?_suffix {l s : List UInt8} (h : l <:+ s) (j : Nat) : s[s.length - l.length + j]? = l[j]? := by
  obtain ⟨p, rfl⟩ := h
  rw [length_append, Nat.add_sub_cancel, List.getElem?_append_right (Nat.le_add_right _ _),
    Nat.add_sub_cancel_left]

theorem Word.In.eq_suffix {w : Word} (h : w.In s) : w.eq <:+ s := by
  have hq := h.q
  rw [h.eq] at hq
  exact (List.suffix_append _ _).trans hq

theorem Word.In.length {w : Word} (h : w.In s) :
    s.length - w.eq.length = s.length - w.q.length + w.text.length := by
  have hq := congrArg List.length h.eq
  have hle := h.q.length_le
  rw [length_append] at hq
  omega

theorem Word.In.end_ne {w w' : Word} (h : w.In s) (h' : w'.In s) {j : Nat}
    (hj : j < w.text.length) : s.length - w'.eq.length ≠ s.length - w.q.length + j := by
  intro hend
  -- the byte of the line at that place belongs to one word, and follows the other
  have hbyte : s[s.length - w.q.length + j]? = some w.text[j] := by
    rw [getElem?_suffix h.q, h.eq, List.getElem?_append_left hj, List.getElem?_eq_getElem hj]
  have hafter : s[s.length - w'.eq.length]? = w'.eq.head? := by
    rw [List.head?_eq_getElem?, ← getElem?_suffix h'.eq_suffix 0, Nat.add_zero]
  rw [← hend, hafter] at hbyte
  have hfalse := h'.after _ hbyte
  rw [h.inside _ (List.getElem_mem hj)] at hfalse
  cases hfalse

theorem string_nulterminate {cmd : Cmd Word} {w : Word} (h0 : (0 : UInt8) ∉ s)
    (hin : ∀ w ∈ cmd.words, w.In s) (hw : w ∈ cmd.words) :
    w.string s.length (nulterminate s.length cmd (s ++ [0])) = w.text := by
  have h := hin w hw
  have hmem : (0 : UInt8) ∉ w.text := fun hmem => h0 (h.q.mem (h.eq ▸ List.mem_append_left _ hmem))
  have hlen := h.length
  rw [Word.string, nulterminate_eq]
  refine takeWhile_ne_zero hmem ?_ ?_
  · intro j hj
    have hlt : s.length - w.q.length + j < s.length := by omega
    rw [List.getElem?_drop, getElem?_foldl_set_of_ne _ _ _ fun w' hw' => h.end_ne (hin w' hw') hj,
      List.getElem?_append_left hlt, getElem?_suffix h.q, h.eq, List.getElem?_append_left hj]
  · rw [List.getElem?_drop]
    refine getElem?_foldl_set _ _ _ ⟨w, hw, hlen⟩ ?_
    rw [length_append]
    exact Nat.lt_succ_of_le (hlen ▸ Nat.sub_le _ _)

theorem Cmd.map_congr {α β : Type} {f g : α → β} {cmd : Cmd α} (h : ∀ w ∈ cmd.words, f w = g w) :
    cmd.map f = cmd.map g := by
  induction cmd with
  | exec argv => exact congrArg Cmd.exec (List.map_congr_left h)
  | redir cmd file mode fd ih | pipe left right ihl ihr | list left right ihl ihr => simp_all [Cmd.words, Cmd.map]
  | back cmd ih => rw [Cmd.map, Cmd.map, ih h]

/-! ## Whole lines -/

/-- The command of a line, with its strings in the memory that the shell runs it from. -/
def commandOf (s : List UInt8) : Except Fail (Cmd (List UInt8)) :=
  (parsecmd s).map fun (cmd, buf) => cmd.map (Word.string s.length buf)

theorem parsecmd_cases (s : List UInt8) :
    (∃ cmd rest, parseline (4 * s.length + 4) s = .ok (cmd, rest) ∧ lex rest = [] ∧
      parsecmd s = .ok (cmd, nulterminate s.length cmd (s ++ [0]))) ∨
    (∃ cmd rest, parseline (4 * s.length + 4) s = .ok (cmd, rest) ∧ lex rest ≠ [] ∧
      parsecmd s = .error (.panic "syntax")) ∨
    ∃ e, parseline (4 * s.length + 4) s = .error e ∧ parsecmd s = .error e := by
  rw [parsecmd]
  cases h : parseline (4 * s.length + 4) s with
  | error e => exact .inr (.inr ⟨e, rfl, rfl⟩)
  | ok r =>
    obtain ⟨cmd, rest⟩ := r
    have hrest : (peek rest []).2 = [] ↔ lex rest = [] := by rw [peek_snd, skip_eq_nil_iff]
    by_cases hnil : lex rest = []
    · refine .inl ⟨cmd, rest, rfl, hnil, ?_⟩
      exact if_neg (not_not.2 (hrest.2 hnil))
    · refine .inr (.inl ⟨cmd, rest, rfl, hnil, ?_⟩)
      exact if_pos (mt hrest.1 hnil)

/-- The parser ends on every line without a 0, and returns a command exactly if the tokens of the line
derive from `line`; the command is the one of the derivation. -/
theorem parsecmd_iff (h0 : (0 : UInt8) ∉ s) :
    parsecmd s ≠ .error .fuel ∧ ∀ c, commandOf s = .ok c ↔ Derives .line (lex s) c := by
  have hsound := parse_sound .line (4 * s.length + 4) h0
  have hfinds : ∀ c, Derives .line (lex s) c →
      ∃ cmd rest, parseline (4 * s.length + 4) s = .ok (cmd, rest) ∧ cmd.map Word.text = c ∧ lex rest = [] :=
    fun c hd => parse_complete hd h0 le_rfl (List.append_nil _).symm (.inl rfl)
  rcases parsecmd_cases s with ⟨cmd, rest, hline, hnil, hcmd⟩ | ⟨cmd, rest, hline, hne, hcmd⟩ | ⟨e, hline, hcmd⟩
  · have p := hsound.of_ok hline
    obtain ⟨ts, hts, hd⟩ := p.derives
    have htree : commandOf s = .ok (cmd.map Word.text) := by
      rw [commandOf, hcmd]
      exact congrArg Except.ok (Cmd.map_congr fun w hw => string_nulterminate h0 p.words hw)
    simp only [hnil, List.append_nil] at hts
    refine ⟨by simp [hcmd], fun c => ?_⟩
    rw [htree]
    constructor
    · rintro ⟨⟩
      exact hts ▸ hd
    · intro hc
      obtain ⟨cmd', rest', hline', rfl, -⟩ := hfinds c hc
      rw [hline] at hline'
      cases hline'
      rfl
  · refine ⟨by simp [hcmd], fun c => ⟨fun h => ?_, fun hc => ?_⟩⟩
    · rw [commandOf, hcmd] at h
      cases h
    · obtain ⟨cmd', rest', hline', -, hnil⟩ := hfinds c hc
      rw [hline] at hline'
      cases hline'
      exact absurd hnil hne
  · refine ⟨fun h => ?_, fun c => ⟨fun h => ?_, fun hc => ?_⟩⟩
    · rw [NT.parse, hline] at hsound
      cases hcmd.symm.trans h
      exact Nat.lt_irrefl _ (hsound rfl)
    · rw [commandOf, hcmd] at h
      cases h
    · obtain ⟨cmd', rest', hline', -⟩ := hfinds c hc
      rw [hline] at hline'
      cases hline'

/-- `(a;b)>f|c&` -/
theorem parsecmd_group :
    Derives .line (lex [40, 97, 59, 98, 41, 62, 102, 124, 99, 38])
      (.back (.pipe (.redir (.list (.exec [[97]]) (.exec [[98]])) [102] 0x201 1) (.exec [[99]]))) := by
  refine ((parsecmd_iff (by decide)).2 _).1 ?_
  decide

/-- On a line that `parsecmd` accepts, every word and every file name of the command reads as the bytes that `gettoken`
delimited in the line, since no 0 is written inside a word. -/
theorem nulterminate_words {s buf : List UInt8} {cmd : Cmd Word} (h0 : (0 : UInt8) ∉ s)
    (h : parsecmd s = .ok (cmd, buf)) :
    ∀ w ∈ cmd.words, w.In s ∧ w.string s.length buf = w.text ∧
      ∀ w' ∈ cmd.words, ∀ j < w.text.length, s.length - w'.eq.length ≠ s.length - w.q.length + j := by
  rcases parsecmd_cases s with ⟨cmd', rest, hline, -, hcmd⟩ | ⟨cmd', rest, -, -, hcmd⟩ | ⟨e, -, hcmd⟩
  · rw [h] at hcmd
    cases hcmd
    have hwords := ((parse_sound .line (4 * s.length + 4) h0).of_ok hline).words
    intro w hw
    refine ⟨hwords w hw, string_nulterminate h0 hwords hw, fun w' hw' j hj => ?_⟩
    exact (hwords w hw).end_ne (hwords w' hw') hj
  · rw [h] at hcmd
    cases hcmd
  · rw [h] at hcmd
    cases hcmd

/-- `cat<a>b` -/
theorem nulterminate_words_cat :
    ∃ cmd buf, parsecmd [99, 97, 116, 60, 97, 62, 98] = .ok (cmd, buf) ∧
      cmd.words.map Word.text = [[99, 97, 116], [97], [98]] ∧ ∀ w ∈ cmd.words, w.string 7 buf = w.text := by
  refine ⟨_, _, rfl, by decide, fun w hw => ?_⟩
  exact (nulterminate_words (s := [99, 97, 116, 60, 97, 62, 98]) (by decide) rfl w hw).2.1

end AsoPracticas.Xv6.Shell
