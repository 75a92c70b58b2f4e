import AsoPracticas.Lib.Threads
import AsoPracticas.Lib.Transition
import AsoPracticas.Xv6.Bcache

/-!
# Buffers — the buffer cache behaves like a plain store of blocks

* `Sound` — what holds of one buffer: its references are counted, what its holder may rely on, and that
  its data are what was last stored in the block unless the holder has changed them since;
* `buffer_cache_refines` — the accesses of every run are those of a plain store.
-/

namespace AsoPracticas.Xv6.Bcache

open Lib
open Function (update update_eq_self update_of_ne update_self)
open Option (ite_none_right_eq_some)

variable {P D : Type} {s s' : State P D} {a b : Buf} {p q : P} {n : Nat} {cur cur' : Nat → D} {l : List Buf}

/-! ## Processes -/

/-- The buffer that the call of a process is about. -/
def Pc.about : Pc → Option Buf
  | .idle => none
  | .locking b _ => some b
  | .testing b _ => some b
  | .issuing b _ => some b
  | .waiting b _ => some b
  | .releasing b => some b

/-- In a call that counts in `refcnt` without the sleep-lock. -/
def Pc.counts (b : Buf) : Pc → Bool
  | .locking c _ => b = c
  | .releasing c => b = c
  | _ => false

/-- In a call that has the sleep-lock. -/
def Pc.inside (b : Buf) : Pc → Bool
  | .testing c _ => b = c
  | .issuing c _ => b = c
  | .waiting c _ => b = c
  | _ => false

def Pc.waits (b : Buf) : Pc → Bool
  | .waiting c _ => b = c
  | _ => false

/-- The block that a call with the sleep-lock is to return. -/
def Pc.result : Pc → Option Nat
  | .testing _ n => some n
  | .issuing _ r => r
  | .waiting _ r => r
  | _ => none

/-- For the buffer `a` the process stays as it was. -/
def Pc.Alike (a : Buf) (pc pc' : Pc) : Prop := pc' = pc ∨ pc.about ≠ some a ∧ pc'.about ≠ some a

theorem Pc.counts_of_about {pc : Pc} (h : pc.about ≠ some b) : pc.counts b = false := by
  cases pc <;> simp_all [Pc.about, Pc.counts, eq_comm]

theorem Pc.inside_of_about {pc : Pc} (h : pc.about ≠ some b) : pc.inside b = false := by
  cases pc <;> simp_all [Pc.about, Pc.inside, eq_comm]

theorem Pc.waits_of_about {pc : Pc} (h : pc.about ≠ some b) : pc.waits b = false := by
  cases pc <;> simp_all [Pc.about, Pc.waits, eq_comm]

theorem Pc.inside_of_waits {pc : Pc} (h : pc.waits b = true) : pc.inside b = true := by
  cases pc <;> simp_all [Pc.waits, Pc.inside]

theorem Pc.Alike.counts {pc pc' : Pc} (h : pc.Alike a pc') : pc'.counts a = pc.counts a := by
  rcases h with rfl | ⟨hpc, hpc'⟩
  · rfl
  · rw [counts_of_about hpc, counts_of_about hpc']

theorem Pc.Alike.inside {pc pc' : Pc} (h : pc.Alike a pc') : pc'.inside a = pc.inside a := by
  rcases h with rfl | ⟨hpc, hpc'⟩
  · rfl
  · rw [inside_of_about hpc, inside_of_about hpc']

/-- The call is about `b`, or about no buffer. -/
def Pc.Only (b : Buf) (pc : Pc) : Prop := pc.about = none ∨ pc.about = some b

theorem Pc.Only.alike {pc pc' : Pc} (h : pc.Only b) (h' : pc'.Only b) (ha : a ≠ b) : pc.Alike a pc' := by
  have hne : ∀ {pc : Pc}, pc.Only b → pc.about ≠ some a := by
    rintro pc (hnone | hsome)
    all_goals grind
  exact .inr ⟨hne h, hne h'⟩

/-! ## One buffer -/

/-- What the holder of the sleep-lock may rely on, by where it is. -/
@[grind cases eager]
structure Held (s : State P D) (b : Buf) (pc : Pc) : Prop where
  queue : b ∈ s.idequeue → pc.waits b = true ∧ ¬ (s.buf b).Done
  clean : pc.inside b = true → s.edited b = false
  valid : pc.inside b = false ∨ pc.result = none → (s.buf b).valid = true
  carries : ∀ n, pc.inside b = true → pc.result = some n → (s.buf b).Carries n

/-- What holds of one buffer, `cur` being what was last stored. -/
@[grind cases eager]
structure Sound (cur : Nat → D) (s : State P D) (b : Buf) : Prop where
  count : ∃ m, Total (fun pc => (Pc.counts b pc).toNat) s.thread m ∧ (s.buf b).refcnt = m + (s.buf b).lock.isSome.toNat
  wants : ∀ p n, s.thread p = .locking b n → (s.buf b).Carries n
  inside : ∀ p, (s.thread p).inside b = true → (s.buf b).lock = some p
  free : (s.buf b).lock = none → s.edited b = false ∧ b ∉ s.idequeue
  held : ∀ p, (s.buf b).lock = some p → Held s b (s.thread p)
  flags : ((s.buf b).dirty = true → (s.buf b).valid = true) ∧ ((s.buf b).valid = true → (s.buf b).dev = ROOTDEV)
  copy : (s.buf b).valid = true → s.edited b = false → (s.buf b).data = cur (s.buf b).blockno

theorem Held.frame {pc pc' : Pc} (h : Held s a pc) (hpc : pc.Alike a pc') (hbuf : s'.buf a = s.buf a)
    (hedited : s'.edited a = s.edited a) (hqueue : a ∈ s'.idequeue ↔ a ∈ s.idequeue) : Held s' a pc' := by
  rcases hpc with rfl | ⟨hout, hout'⟩
  · obtain ⟨hq, hclean, hvalid, hcarries⟩ := h
    refine ⟨?_, ?_, ?_, ?_⟩
    all_goals grind
  · have hin := Pc.inside_of_about hout
    have hin' := Pc.inside_of_about hout'
    refine ⟨fun hmem => ?_, fun hyes => ?_, fun _ => ?_, fun m hyes => ?_⟩
    all_goals grind [Pc.waits_of_about]

theorem Sound.frame (h : Sound cur s a) (hbuf : s'.buf a = s.buf a)
    (hedited : s'.edited a = s.edited a) (hqueue : a ∈ s'.idequeue ↔ a ∈ s.idequeue)
    (hthread : ∀ q, (s.thread q).Alike a (s'.thread q))
    (hcur : (s.buf a).dev = ROOTDEV → cur' (s.buf a).blockno = cur (s.buf a).blockno) :
    Sound cur' s' a := by
  refine ⟨?_, fun q n hq => ?_, fun q hq => ?_, ?_, fun q hq => ?_, ?_, fun hv he => ?_⟩
  · obtain ⟨m, htotal, href⟩ := h.count
    rw [hbuf]
    exact ⟨m, htotal.congr fun q => by rw [(hthread q).counts], href⟩
  · rw [hbuf]
    rcases hthread q with hsame | ⟨-, hout⟩
    · exact h.wants q n (hsame ▸ hq)
    · rw [hq] at hout
      exact absurd rfl hout
  · rw [hbuf]
    exact h.inside q ((hthread q).inside ▸ hq)
  · rw [hbuf, hedited, hqueue]
    exact h.free
  · rw [hbuf] at hq
    exact (h.held q hq).frame (hthread q) hbuf hedited hqueue
  all_goals grind

theorem Sound.dev_of_inside (h : Sound cur s b) (hp : (s.thread p).inside b = true) : (s.buf b).dev = ROOTDEV := by
  have hheld := h.held p (h.inside p hp)
  cases hr : (s.thread p).result with
  | none => exact h.flags.2 (hheld.valid (.inr hr))
  | some n => exact (hheld.carries n hp hr).1

/-- The buffer a process acts on: what the process answers for, the other processes being as before. -/
theorem Sound.actor [DecidableEq P] (h : Sound cur s b) {pc : Pc} (hthread : s'.thread = update s.thread p pc)
    (hcount : (s'.buf b).refcnt + ((s.thread p).counts b).toNat + (s.buf b).lock.isSome.toNat =
      (s.buf b).refcnt + (pc.counts b).toNat + (s'.buf b).lock.isSome.toNat)
    (hcarries : ∀ n, (s.buf b).Carries n → (s'.buf b).Carries n)
    (hwants : ∀ n, pc = .locking b n → (s'.buf b).Carries n)
    (hlock : ∀ q ≠ p, (s'.buf b).lock = some q ↔ (s.buf b).lock = some q)
    (hothers : ∀ q ≠ p, (s.buf b).lock = some q → Held s b (s.thread q) → Held s' b (s.thread q))
    (hinside : pc.inside b = true → (s'.buf b).lock = some p)
    (hheld : (s'.buf b).lock = some p → Held s' b pc)
    (hfree : (s'.buf b).lock = none → s'.edited b = false ∧ b ∉ s'.idequeue)
    (hflags : ((s'.buf b).dirty = true → (s'.buf b).valid = true) ∧
      ((s'.buf b).valid = true → (s'.buf b).dev = ROOTDEV))
    (hcopy : (s'.buf b).valid = true → s'.edited b = false →
      (s'.buf b).data = cur' (s'.buf b).blockno) : Sound cur' s' b where
  count := by
    obtain ⟨m, htotal, href⟩ := h.count
    have hle := htotal.le p
    refine ⟨m + (pc.counts b).toNat - ((s.thread p).counts b).toNat, ?_, ?_⟩
    · rw [hthread]
      exact htotal.goto rfl (by omega)
    · omega
  wants q n hq := by
    rw [hthread] at hq
    grind
  inside q hq := by
    rw [hthread] at hq
    grind
  free := hfree
  held q hq := by
    rw [hthread]
    grind
  flags := hflags
  copy := hcopy

/-! ## The list -/

/-- The buffer `a` was released after `b`, or `b` never was. -/
def State.Later (s : State P D) (a b : Buf) : Prop := s.fell b < s.fell a ∨ s.fell b = 0

/-- Each buffer is in the list once, and they are in the order in which they were last released. -/
@[grind cases eager]
structure Ordered (s : State P D) (l : List Buf) : Prop where
  circle : Circle s.links none (l.map some)
  all : l.Perm (List.finRange NBUF)
  sorted : l.Pairwise s.Later
  bound : ∀ b, s.fell b ≤ s.clock

theorem Ordered.congr (h : Ordered s l) (hlinks : s'.links = s.links)
    (hfell : s'.fell = s.fell) (hclock : s'.clock = s.clock) : Ordered s' l where
  circle := by
    rw [hlinks]
    exact h.circle
  all := h.all
  sorted := by
    refine h.sorted.imp fun {a b} hab => ?_
    unfold State.Later at *
    rwa [hfell]
  bound := by
    rw [hfell, hclock]
    exact h.bound

theorem Ordered.length (h : Ordered s l) : l.length = NBUF := by
  rw [h.all.length_eq, List.length_finRange]

theorem Ordered.mem (h : Ordered s l) (b : Buf) : b ∈ l :=
  h.all.mem_iff.2 (List.mem_finRange b)

theorem Ordered.release (h : Ordered s l)
    (hlinks : s'.links = (s.links.remove (some b)).pushFront none (some b))
    (hclock : s'.clock = s.clock + 1) (hfell : s'.fell = update s.fell b (s.clock + 1)) :
    ∃ l, Ordered s' l := by
  obtain ⟨l1, l2, rfl⟩ := List.append_of_mem (h.mem b)
  have hnodup : (l1 ++ b :: l2).Nodup := h.all.nodup_iff.2 (List.nodup_finRange NBUF)
  have hout : b ∉ l1 ++ l2 := by
    rw [List.nodup_middle] at hnodup
    exact (List.nodup_cons.1 hnodup).1
  have hcircle := h.circle
  rw [List.map_append, List.map_cons] at hcircle
  refine ⟨b :: (l1 ++ l2), ?_, ?_, ?_, ?_⟩
  · rw [hlinks, List.map_cons, List.map_append]
    refine hcircle.remove.pushFront ?_
    simpa using hout
  · exact (List.perm_middle.symm).trans h.all
  · refine List.pairwise_cons.2 ⟨fun c hc => .inl ?_, ?_⟩
    · have hne : c ≠ b := fun heq => hout (heq ▸ hc)
      rw [hfell, update_self, update_of_ne hne]
      exact Nat.lt_succ_of_le (h.bound c)
    · have hrest : (l1 ++ l2).Pairwise s.Later :=
        h.sorted.sublist ((List.sublist_cons_self b l2).append_left l1)
      refine hrest.imp_of_mem fun {c d} hc hd hcd => ?_
      have hcb : c ≠ b := fun heq => hout (heq ▸ hc)
      have hdb : d ≠ b := fun heq => hout (heq ▸ hd)
      unfold State.Later at *
      rwa [hfell, update_of_ne hcb, update_of_ne hdb]
  · intro c
    rw [hfell, hclock]
    rcases eq_or_ne c b with rfl | hne
    · rw [update_self]
    · rw [update_of_ne hne]
      exact Nat.le_succ_of_le (h.bound c)

theorem find?_map_some (f : Buf → Bool) (l : List Buf) :
    (l.map some).find? (fun x => x.any f) = (l.find? f).map some := by
  rw [List.find?_map]
  rfl

theorem Ordered.cached (h : Ordered s l) (n : Nat) :
    s.cached n = some (l.find? fun b => (s.buf b).Carries n) := by
  have hlength : (l.map some).length < NBUF + 1 := by
    rw [List.length_map, h.length]
    exact Nat.lt_succ_self _
  rw [State.cached, h.circle.scan_next _ hlength, find?_map_some, Option.map_some]
  cases l.find? _ <;> rfl

theorem Ordered.unused (h : Ordered s l) :
    s.unused = some (l.reverse.find? fun b => (s.buf b).Unused) := by
  have hlength : (l.map some).length < NBUF + 1 := by
    rw [List.length_map, h.length]
    exact Nat.lt_succ_self _
  rw [State.unused, h.circle.scan_prev _ hlength, ← List.map_reverse, find?_map_some, Option.map_some]
  cases l.reverse.find? _ <;> rfl

/-! ## The invariant -/

/-- `init` is what the device contains at the start. -/
@[grind cases eager]
structure Inv (init : Nat → D) (s : State P D) : Prop where
  sound : ∀ b, Sound (contents init s.accesses) s b
  unique : ∀ a b n, (s.buf a).Carries n → (s.buf b).Carries n → a = b
  clean : ∀ n, (∀ b, (s.buf b).Carries n → (s.buf b).dirty = false) → s.disk (ROOTDEV, n) = contents init s.accesses n
  nodup : s.idequeue.Nodup
  order : ∃ l, Ordered s l
  faithful : Faithful init s.accesses

section Moves

variable {init : Nat → D} {e : Buffer P D} {pc : Pc}

theorem Inv.clean_self (h : Inv init s) (hb : (s.buf b).Carries n) (hd : (s.buf b).dirty = false) :
    s.disk (ROOTDEV, n) = contents init s.accesses n := by
  refine h.clean n fun a ha => ?_
  rwa [h.unique a b n ha hb]

theorem Inv.act (h : Inv init s) (hbuf : s'.buf = update s.buf b e) (hedited : ∀ a ≠ b, s'.edited a = s.edited a)
    (hqueue : ∀ a ≠ b, a ∈ s'.idequeue ↔ a ∈ s.idequeue)
    (hthread : ∀ a ≠ b, ∀ q, (s.thread q).Alike a (s'.thread q))
    (hcarries : ∀ n, e.Carries n ↔ (s.buf b).Carries n)
    (hcur : ∀ n, ¬ (s.buf b).Carries n → contents init s'.accesses n = contents init s.accesses n)
    (hdisk : ∀ n, ¬ (s.buf b).Carries n → s'.disk (ROOTDEV, n) = s.disk (ROOTDEV, n))
    (hclean : ∀ n, (s.buf b).Carries n → e.dirty = false → s'.disk (ROOTDEV, n) = contents init s'.accesses n)
    (hnodup : s'.idequeue.Nodup) (horder : ∃ l, Ordered s' l) (hfaithful : Faithful init s'.accesses)
    (hsound : Sound (contents init s'.accesses) s' b) : Inv init s' := by
  have hself : s'.buf b = e := by rw [hbuf, update_self]
  have hother : ∀ a ≠ b, s'.buf a = s.buf a := fun a ha => by rw [hbuf, update_of_ne ha]
  have hkeep : ∀ a n, (s'.buf a).Carries n ↔ (s.buf a).Carries n := by grind
  refine ⟨fun a => ?_, fun a c n ha hc => ?_, fun n hn => ?_, hnodup, horder, hfaithful⟩
  · rcases eq_or_ne a b with rfl | ha
    · exact hsound
    · refine (h.sound a).frame (hother a ha) (hedited a ha) (hqueue a ha) (hthread a ha) fun hdev => hcur _ ?_
      exact fun hb => ha (h.unique a b _ ⟨hdev, rfl⟩ hb)
  all_goals grind

variable [DecidableEq P]

theorem alike_update {thread : P → Pc} (hpc : (thread p).Only b) (hpc' : pc.Only b) :
    ∀ a ≠ b, ∀ q, (thread q).Alike a (update thread p pc q) := by
  intro a ha q
  rcases eq_or_ne q p with rfl | hq
  · rw [update_self]
    exact hpc.alike hpc' ha
  · rw [update_of_ne hq]
    exact .inl rfl

theorem Inv.keep (h : Inv init s) (hbuf : s'.buf = update s.buf b e)
    (hthread : s'.thread = update s.thread p pc) (hpc : (s.thread p).Only b) (hpc' : pc.Only b)
    (hedited : ∀ a ≠ b, s'.edited a = s.edited a)
    (hqueue : ∀ a ≠ b, a ∈ s'.idequeue ↔ a ∈ s.idequeue) (hdisk : s'.disk = s.disk)
    (hcur : contents init s'.accesses = contents init s.accesses)
    (hcarries : ∀ n, e.Carries n ↔ (s.buf b).Carries n) (hdirty : e.dirty = (s.buf b).dirty)
    (hnodup : s'.idequeue.Nodup) (horder : ∃ l, Ordered s' l) (hfaithful : Faithful init s'.accesses)
    (hsound : Sound (contents init s.accesses) s' b) : Inv init s' := by
  refine h.act hbuf hedited hqueue ?_ hcarries (fun n _ => by rw [hcur]) (fun n _ => by rw [hdisk])
    (fun n hb hd => ?_) hnodup horder hfaithful (by rw [hcur]; exact hsound)
  · rw [hthread]
    exact alike_update hpc hpc'
  · rw [hdisk, hcur]
    exact h.clean_self hb (hdirty ▸ hd)

theorem Sound.holder (h : Sound cur s b) (hbuf : s'.buf b = e) (hthread : s'.thread = update s.thread p pc)
    (hbefore : (s.buf b).lock = some p ∨ (s.buf b).lock = none) (hafter : e.lock = some p ∨ e.lock = none)
    (hcount : e.refcnt + ((s.thread p).counts b).toNat + (s.buf b).lock.isSome.toNat =
      (s.buf b).refcnt + (pc.counts b).toNat + e.lock.isSome.toNat)
    (hcarries : ∀ n, (s.buf b).Carries n → e.Carries n) (hwants : ∀ n, pc = .locking b n → e.Carries n)
    (hinside : pc.inside b = true → e.lock = some p) (hheld : e.lock = some p → Held s' b pc)
    (hfree : e.lock = none → s'.edited b = false ∧ b ∉ s'.idequeue)
    (hflags : (e.dirty = true → e.valid = true) ∧ (e.valid = true → e.dev = ROOTDEV))
    (hcopy : e.valid = true → s'.edited b = false → e.data = cur' e.blockno) : Sound cur' s' b := by
  have hnot : ∀ {e : Buffer P D}, e.lock = some p ∨ e.lock = none → ∀ q ≠ p, e.lock ≠ some q := by grind
  subst hbuf
  refine h.actor hthread hcount hcarries hwants (fun q hq => ?_) (fun q hq heq => ?_) hinside hheld hfree hflags hcopy
  all_goals grind

end Moves

/-! ## The steps -/

section Steps

variable {init : Nat → D} {r : Option Nat}

theorem Inv.holds (h : Inv init s) (hh : s.Holds p b) :
    (s.buf b).valid = true ∧ (s.buf b).dev = ROOTDEV ∧ b ∉ s.idequeue := by
  have hb := h.sound b
  obtain ⟨hpc, hlock⟩ := hh
  have hheld := hb.held p hlock
  rw [hpc] at hheld
  have hvalid := hheld.valid (.inl rfl)
  exact ⟨hvalid, hb.flags.2 hvalid, fun hq => nomatch (hheld.queue hq).1⟩

theorem Inv.within (h : Inv init s) {pc : Pc} (hpc : s.thread p = pc) (hin : pc.inside b = true) :
    (s.buf b).lock = some p ∧ Held s b pc := by
  have hlock := (h.sound b).inside p (hpc ▸ hin)
  exact ⟨hlock, hpc ▸ (h.sound b).held p hlock⟩

variable [DecidableEq P]

theorem Inv.acquiresleep (h : Inv init s) (hpc : s.thread p = .locking b n) (hlock : (s.buf b).lock = none) :
    Inv init ((s.setBuf b ((s.buf b).setLock (some p))).goto p (.testing b n)) := by
  have hb := h.sound b
  obtain ⟨hedited, hout⟩ := hb.free hlock
  refine h.keep rfl rfl (by rw [hpc]; exact .inr rfl) (.inr rfl) (fun _ _ => rfl) (fun _ _ => .rfl) rfl rfl
    (fun _ => .rfl) rfl h.nodup (h.order.imp fun _ hl => hl.congr rfl rfl rfl) h.faithful ?_
  refine hb.holder (update_self ..) rfl (.inr hlock) (.inl rfl) ?_ (fun _ hn => hn) nofun
    (fun _ => rfl) (fun _ => ⟨?_, ?_, ?_, ?_⟩) nofun hb.flags hb.copy
  · rw [hpc, hlock]
    simp [Pc.counts, Buffer.setLock]
  · exact fun hmem => absurd hmem hout
  · exact fun _ => hedited
  · rintro (hno | hno)
    · simp [Pc.inside] at hno
    · cases hno
  · intro m _ hm
    obtain rfl := Option.some.inj hm
    change (update s.buf b ((s.buf b).setLock (some p)) b).Carries n
    rw [update_self]
    exact hb.wants p n hpc

theorem Inv.goto (h : Inv init s) {pc pc' : Pc} (hpc : s.thread p = pc) (hin : pc.inside b = true)
    (honly : pc.Only b) (honly' : pc'.Only b) (hcounts : pc'.counts b = false)
    (hlocking : ∀ n, pc' ≠ .locking b n) (hheld : Held s b pc → Held s b pc') : Inv init (s.goto p pc') := by
  have hb := h.sound b
  obtain ⟨hlock, hold⟩ := h.within hpc hin
  have hcounts' : pc.counts b = false := by
    cases pc <;> simp_all [Pc.inside, Pc.counts]
  refine h.keep (update_eq_self b s.buf).symm rfl (hpc ▸ honly) honly' (fun _ _ => rfl)
    (fun _ _ => .rfl) rfl rfl (fun _ => .rfl) rfl h.nodup (h.order.imp fun _ hl => hl.congr rfl rfl rfl)
    h.faithful ?_
  refine hb.holder rfl rfl (.inl hlock) (.inl hlock) ?_ (fun _ hn => hn)
    (fun n hn => absurd hn (hlocking n)) (fun _ => hlock) (fun _ => ?_)
    (fun hnone => absurd (hlock.symm.trans hnone) (Option.some_ne_none p)) hb.flags hb.copy
  · rw [hpc, hcounts, hcounts']
    rfl
  · obtain ⟨hqueue, hclean, hvalid, hcarries⟩ := hheld hold
    exact ⟨hqueue, hclean, hvalid, hcarries⟩

theorem Inv.finish (h : Inv init s) {pc : Pc} (hpc : s.thread p = pc) (hin : pc.inside b = true)
    (honly : pc.Only b) (hresult : pc.result = r) (hvalid : (s.buf b).valid = true)
    (hout : b ∉ s.idequeue) : Inv init (Bcache.finish s p b r) := by
  have hgoto : Inv init (s.goto p .idle) := by
    refine h.goto hpc hin honly (.inl rfl) rfl (fun _ => nofun) fun _ => ?_
    exact ⟨fun hmem => absurd hmem hout, nofun, fun _ => hvalid, nofun⟩
  obtain ⟨-, hheld⟩ := h.within hpc hin
  cases r with
  | none => exact hgoto
  | some n =>
    have hread : (s.buf b).data = contents init s.accesses n := by
      rw [(h.sound b).copy hvalid (hheld.clean hin), (hheld.carries n hin hresult).2]
    have hfaithful : Faithful init (s.accesses ++ [.read n (s.buf b).data]) := by
      refine h.faithful.concat fun i x heq => ?_
      obtain ⟨rfl, rfl⟩ := Access.read.inj heq
      exact hread
    obtain ⟨hsound, hunique, hclean, hnodup, horder, -⟩ := hgoto
    refine ⟨fun a => ?_, hunique, ?_, hnodup, horder.imp fun _ hl => hl.congr rfl rfl rfl, hfaithful⟩
    · change Sound (contents init (s.accesses ++ [.read n (s.buf b).data])) _ a
      rw [contents_read]
      exact (hsound a).frame rfl rfl .rfl (fun _ => .inl rfl) fun _ => rfl
    · change ∀ m, _ → _ = contents init (s.accesses ++ [.read n (s.buf b).data]) m
      rw [contents_read]
      exact hclean

theorem Inv.iderw (h : Inv init s) (hpc : s.thread p = .issuing b r) (hdone : ¬ (s.buf b).Done) :
    Inv init ({ s with idequeue := s.idequeue ++ [b] }.goto p (.waiting b r)) := by
  have hb := h.sound b
  obtain ⟨hlock, hheld⟩ := h.within (b := b) hpc (by simp [Pc.inside])
  have hout : b ∉ s.idequeue := fun hmem => nomatch (hheld.queue hmem).1
  refine h.keep (update_eq_self b s.buf).symm rfl (by rw [hpc]; exact .inr rfl) (.inr rfl)
    (fun _ _ => rfl) (fun a ha => ?_) rfl rfl (fun _ => .rfl) rfl ?_
    (h.order.imp fun _ hl => hl.congr rfl rfl rfl) h.faithful ?_
  · change a ∈ s.idequeue ++ [b] ↔ _
    rw [List.mem_append, List.mem_singleton, or_iff_left ha]
  · refine List.nodup_append.2 ⟨h.nodup, List.nodup_singleton b, fun a ha c hc heq => hout ?_⟩
    rwa [heq, List.mem_singleton.1 hc] at ha
  · refine hb.holder rfl rfl (.inl hlock) (.inl hlock) ?_ (fun _ hn => hn) nofun (fun _ => hlock)
      (fun _ => ⟨fun _ => ⟨by simp [Pc.waits], hdone⟩, fun _ => ?_, fun hor => ?_, fun m _ hm => ?_⟩)
      (fun hnone => absurd (hlock.symm.trans hnone) nofun) hb.flags hb.copy
    · rw [hpc]
      rfl
    · exact hheld.clean (by simp [Pc.inside])
    · exact hheld.valid (hor.imp (by simp [Pc.inside]) id)
    · exact hheld.carries m (by simp [Pc.inside]) hm

theorem Inv.modify (h : Inv init s) (hh : s.Holds p b) (d : D) :
    Inv init ((s.setBuf b ((s.buf b).setData d)).setEdited b true) := by
  have hb := h.sound b
  obtain ⟨hvalid, -, hout⟩ := h.holds hh
  obtain ⟨hpc, hlock⟩ := hh
  have hedited : ((s.setBuf b ((s.buf b).setData d)).setEdited b true).edited b = true := update_self ..
  have hself : ((s.setBuf b ((s.buf b).setData d)).setEdited b true).buf b = (s.buf b).setData d :=
    update_self ..
  refine h.keep rfl (update_eq_self p s.thread).symm (by rw [hpc]; exact .inl rfl)
    (by rw [hpc]; exact .inl rfl) (fun a ha => update_of_ne ha ..) (fun _ _ => .rfl) rfl rfl
    (fun _ => .rfl) rfl h.nodup (h.order.imp fun _ hl => hl.congr rfl rfl rfl) h.faithful ?_
  refine hb.holder (update_self ..) (update_eq_self p s.thread).symm (.inl hlock)
    (.inl hlock) rfl (fun _ hn => hn) (by rw [hpc]; exact nofun) (fun _ => hlock) (fun _ => ?_) ?_ hb.flags ?_
  · rw [hpc]
    exact ⟨fun hmem => absurd hmem hout, nofun, fun _ => by rw [hself]; exact hvalid, nofun⟩
  all_goals grind [State.setBuf, Buffer.setData, State.setEdited]

theorem Inv.store (h : Inv init s) (hh : s.Holds p b) (pc : Pc) (honly : pc.Only b)
    (hcounts : pc.counts b = false) (hlocking : ∀ n, pc ≠ .locking b n) (hresult : pc.result = none) :
    Inv init ((s.store b).goto p pc) := by
  have hb := h.sound b
  obtain ⟨hvalid, hdev, hout⟩ := h.holds hh
  obtain ⟨hpc, hlock⟩ := hh
  have hself : ((s.store b).goto p pc).buf b = (s.buf b).setDirty := update_self ..
  have hedited : ((s.store b).goto p pc).edited b = false := update_self ..
  have hcur : contents init ((s.store b).goto p pc).accesses =
      update (contents init s.accesses) (s.buf b).blockno (s.buf b).data := contents_write
  refine h.act rfl (fun a ha => update_of_ne ha ..) (fun _ _ => .rfl)
    (alike_update (by rw [hpc]; exact .inl rfl) honly) (fun _ => .rfl) (fun n hn => ?_) (fun _ _ => rfl)
    nofun h.nodup (h.order.imp fun _ hl => hl.congr rfl rfl rfl) ?_ ?_
  · rw [hcur, update_of_ne]
    rintro rfl
    exact hn ⟨hdev, rfl⟩
  · exact h.faithful.concat nofun
  · rw [hcur]
    refine hb.holder hself rfl (.inl hlock) (.inl hlock) ?_ (fun _ hn => hn)
      (fun n hn => absurd hn (hlocking n)) (fun _ => hlock) (fun _ => ?_)
      (fun hnone => absurd (hlock.symm.trans hnone) nofun) ⟨fun _ => hvalid, fun _ => hdev⟩ ?_
    · rw [hpc, hcounts]
      rfl
    · refine ⟨fun hmem => absurd hmem hout, fun _ => hedited, fun _ => by rw [hself]; exact hvalid, ?_⟩
      intro m _ hm
      rw [hresult] at hm
      cases hm
    · intro _ _
      exact (update_self (s.buf b).blockno (s.buf b).data (contents init s.accesses)).symm

theorem Inv.logWrite (h : Inv init s) (hh : s.Holds p b) : Inv init (s.store b) := by
  have hgoto := h.store hh .idle (.inl rfl) rfl (fun _ => nofun) rfl
  have hsame : (s.store b).goto p .idle = s.store b := by
    refine congrArg (fun t => { s.store b with thread := t }) ?_
    rw [← hh.1]
    exact update_eq_self p s.thread
  rwa [hsame] at hgoto

theorem Inv.releasesleep (h : Inv init s) (hh : s.Holds p b) (hedited : s.edited b = false) :
    Inv init ((s.setBuf b ((s.buf b).setLock none)).goto p (.releasing b)) := by
  have hb := h.sound b
  obtain ⟨-, -, hout⟩ := h.holds hh
  obtain ⟨hpc, hlock⟩ := hh
  refine h.keep rfl rfl (by rw [hpc]; exact .inl rfl) (.inr rfl) (fun _ _ => rfl) (fun _ _ => .rfl) rfl rfl
    (fun _ => .rfl) rfl h.nodup (h.order.imp fun _ hl => hl.congr rfl rfl rfl) h.faithful ?_
  refine hb.holder (update_self ..) rfl (.inl hlock) (.inr rfl) ?_ (fun _ hn => hn) nofun nofun
    nofun (fun _ => ⟨hedited, hout⟩) hb.flags hb.copy
  rw [hpc, hlock]
  simp [Pc.counts, Buffer.setLock]

theorem Inv.recount (h : Inv init s) {pc : Pc} {m : Nat} (hbuf : s'.buf = update s.buf b ((s.buf b).setRefcnt m))
    (hthread : s'.thread = update s.thread p pc)
    (hsame : s'.edited = s.edited ∧ s'.idequeue = s.idequeue ∧ s'.disk = s.disk ∧ s'.accesses = s.accesses)
    (honly : (s.thread p).Only b) (honly' : pc.Only b) (hin : (s.thread p).inside b = false)
    (hin' : pc.inside b = false)
    (hcount : m + ((s.thread p).counts b).toNat = (s.buf b).refcnt + (pc.counts b).toNat)
    (hwants : ∀ n, pc = .locking b n → (s.buf b).Carries n) (horder : ∃ l, Ordered s' l) :
    Inv init s' := by
  obtain ⟨hedited, hqueue, hdisk, haccesses⟩ := hsame
  have hb := h.sound b
  have hself : s'.buf b = (s.buf b).setRefcnt m := by rw [hbuf, update_self]
  refine h.keep hbuf hthread honly honly' (fun _ _ => by rw [hedited]) (fun _ _ => by rw [hqueue]) hdisk
    (by rw [haccesses]) (fun _ => .rfl) rfl (by rw [hqueue]; exact h.nodup) horder
    (by rw [haccesses]; exact h.faithful) ?_
  have hcopy : ∀ {pc : Pc}, Held s b pc → Held s' b pc := by
    rintro pc ⟨hq, hclean, hvalid, hcarries⟩
    refine ⟨?_, ?_, ?_, ?_⟩
    · rwa [hqueue, hself]
    · rwa [hedited]
    · rwa [hself]
    · rwa [hself]
  refine hb.actor hthread ?_ ?_ ?_ (fun _ _ => by rw [hself]; rfl) (fun _ _ _ => hcopy) ?_ ?_ ?_ ?_ ?_
  · rw [hself]
    exact congrArg (· + (s.buf b).lock.isSome.toNat) hcount
  · rw [hself]
    exact fun _ hn => hn
  · rw [hself]
    exact hwants
  · rw [hin']
    exact nofun
  · -- the process may be asking for a buffer that it has
    rw [hself]
    intro hlock
    obtain ⟨hq, -, hvalid, -⟩ := hb.held p hlock
    refine ⟨fun hmem => ?_, ?_, fun _ => ?_, ?_⟩
    all_goals grind [Pc.inside, Pc.counts, Buffer.setRefcnt, Buffer.Carries, Pc.inside_of_waits]
  · rw [hself, hedited, hqueue]
    exact hb.free
  · rw [hself]
    exact hb.flags
  · rw [hself, hedited]
    exact hb.copy

theorem Inv.unref (h : Inv init s) (hpc : s.thread p = .releasing b) : Inv init ((s.unref b).goto p .idle) := by
  obtain ⟨l, hl⟩ := h.order
  have hpos : 0 < (s.buf b).refcnt := by
    obtain ⟨m, htotal, href⟩ := (h.sound b).count
    have hle := htotal.le p
    rw [hpc] at hle
    simp only [Pc.counts, decide_true, Bool.toNat_true] at hle
    omega
  have hcount : (s.buf b).refcnt - 1 + ((s.thread p).counts b).toNat =
      (s.buf b).refcnt + (Pc.counts b .idle).toNat := by
    rw [hpc]
    simp only [Pc.counts, decide_true, Bool.toNat_true, Bool.toNat_false]
    omega
  have honly : (s.thread p).Only b := by
    rw [hpc]
    exact .inr rfl
  have hin : (s.thread p).inside b = false := by rw [hpc]; rfl
  unfold State.unref
  split
  · exact h.recount rfl rfl ⟨rfl, rfl, rfl, rfl⟩ honly (.inl rfl) hin rfl hcount nofun (hl.release rfl rfl rfl)
  · exact h.recount rfl rfl ⟨rfl, rfl, rfl, rfl⟩ honly (.inl rfl) hin rfl hcount nofun ⟨l, hl.congr rfl rfl rfl⟩

theorem Inv.recycle (h : Inv init s) (hpc : s.thread p = .idle) (hunused : (s.buf b).Unused)
    (hnone : ∀ a, ¬ (s.buf a).Carries n) :
    Inv init ((s.setBuf b ((s.buf b).recycle n)).goto p (.locking b n)) := by
  have hb := h.sound b
  obtain ⟨m, htotal, href⟩ := hb.count
  have hzero : m = 0 ∧ (s.buf b).lock.isSome.toNat = 0 := by
    rw [hunused.1] at href
    omega
  have hlock : (s.buf b).lock = none := by
    cases hl : (s.buf b).lock with
    | none => rfl
    | some q =>
      have hone := hzero.2
      rw [hl] at hone
      cases hone
  have hquiet : ∀ q, (s.thread q).counts b = false := by
    intro q
    have hle := htotal.le q
    grind
  obtain ⟨hedited, hout⟩ := hb.free hlock
  have hself : ((s.setBuf b ((s.buf b).recycle n)).goto p (.locking b n)).buf b = (s.buf b).recycle n :=
    update_self ..
  have hother : ∀ a ≠ b, ((s.setBuf b ((s.buf b).recycle n)).goto p (.locking b n)).buf a = s.buf a :=
    fun a ha => update_of_ne ha ..
  have hmine : ∀ {m : Nat}, ((s.buf b).recycle n).Carries m → m = n := fun hm => hm.2.symm
  refine ⟨fun a => ?_, fun a c m ha hc => ?_, fun m hm => ?_, h.nodup,
    h.order.imp fun _ hl => hl.congr rfl rfl rfl, h.faithful⟩
  · rcases eq_or_ne a b with rfl | ha
    · refine ⟨⟨1, htotal.goto hpc ?_, ?_⟩, fun q k hq => ?_, fun q hq => ?_, ?_, ?_, ?_, ?_⟩
      · rw [hzero.1]
        simp [Pc.counts]
      · rw [hself]
        simp [Buffer.recycle, hlock]
      · rw [hself]
        change update s.thread p (Pc.locking a n) q = _ at hq
        rcases eq_or_ne q p with rfl | hne
        · rw [update_self] at hq
          obtain ⟨-, rfl⟩ := Pc.locking.inj hq
          exact ⟨rfl, rfl⟩
        grind [State.setBuf, Pc.counts, Buffer.Unused, Buffer.Carries]
      · change (update s.thread p (Pc.locking a n) q).inside a = true at hq
        rcases eq_or_ne q p with rfl | hne
        all_goals grind [State.setBuf, Pc.inside, Buffer.Unused, Buffer.Carries]
      · exact fun _ => ⟨hedited, hout⟩
      · intro q hq
        rw [hself] at hq
        exact absurd (hlock.symm.trans hq) (by simp)
      · rw [hself]
        constructor <;> rintro ⟨⟩
      · rw [hself]
        rintro ⟨⟩
    · exact (h.sound a).frame (hother a ha) rfl .rfl
        (alike_update (by rw [hpc]; exact .inl rfl) (.inr rfl) a ha) fun _ => rfl
  · rcases eq_or_ne a b with rfl | hab <;> rcases eq_or_ne c a with rfl | hca
    · rfl
    · rw [hself] at ha
      rw [hother c hca, hmine ha] at hc
      exact absurd hc (hnone c)
    · rfl
    · rw [hother a hab] at ha
      rcases eq_or_ne c b with rfl | hcb
      · rw [hself] at hc
        rw [hmine hc] at ha
        exact absurd ha (hnone a)
      · rw [hother c hcb] at hc
        exact h.unique a c m ha hc
  · -- the block that the buffer carried is on disk, since the buffer is not dirty
    refine h.clean m fun a ha => ?_
    rcases eq_or_ne a b with rfl | hab
    · exact hunused.2
    · rw [← hother a hab] at ha ⊢
      exact hm a ha

theorem Inv.bget (h : Inv init s) (hpc : s.thread p = .idle) (hs : bget s p n = some s') :
    Inv init s' := by
  obtain ⟨l, hl⟩ := h.order
  unfold Bcache.bget at hs
  rw [hl.cached, hl.unused] at hs
  split at hs
  next heq => cases heq
  next b heq =>
    have hfound := List.find?_some (Option.some.inj heq)
    rw [decide_eq_true_eq] at hfound
    cases hs
    refine h.recount rfl rfl ⟨rfl, rfl, rfl, rfl⟩ (by rw [hpc]; exact .inl rfl) (.inr rfl)
      (by rw [hpc]; rfl) rfl ?_ (fun m hm => ?_) ⟨l, hl.congr rfl rfl rfl⟩
    · rw [hpc]
      simp [Pc.counts]
    · obtain ⟨-, rfl⟩ := Pc.locking.inj hm
      exact hfound
  next heq =>
    have hnone := List.find?_eq_none.1 (Option.some.inj heq)
    split at hs
    next b heq' =>
      have hfound := List.find?_some (Option.some.inj heq')
      rw [decide_eq_true_eq] at hfound
      cases hs
      refine h.recycle hpc hfound fun a ha => ?_
      exact hnone a (hl.mem a) (decide_eq_true ha)
    next => cases hs

/-- The request for a buffer is finished: the block on disk and the data are what was last stored. -/
theorem Inv.transfer (h : Inv init s) {l : List Buf} (hqueue : s.idequeue = b :: l) {d : D}
    (hbuf : s'.buf = update s.buf b { s.buf b with valid := true, dirty := false, data := d })
    (hsame : s'.edited = s.edited ∧ s'.thread = s.thread ∧ s'.accesses = s.accesses)
    (hlist : s'.links = s.links ∧ s'.fell = s.fell ∧ s'.clock = s.clock) (hrest : s'.idequeue = l)
    (hdisk : ∀ n, ¬ (s.buf b).Carries n → s'.disk (ROOTDEV, n) = s.disk (ROOTDEV, n))
    (hblock : (s.buf b).dev = ROOTDEV → s.edited b = false →
      s'.disk (ROOTDEV, (s.buf b).blockno) = contents init s.accesses (s.buf b).blockno ∧
      d = contents init s.accesses (s.buf b).blockno) : Inv init s' := by
  obtain ⟨hedited, hthread, haccesses⟩ := hsame
  have hb := h.sound b
  have hmem : b ∈ s.idequeue := hqueue ▸ List.mem_cons_self ..
  obtain ⟨hout, hnodup⟩ := List.nodup_cons.1 (hqueue ▸ h.nodup)
  obtain ⟨p, hlock⟩ : ∃ p, (s.buf b).lock = some p := by
    refine Option.ne_none_iff_exists'.1 fun hnone => ?_
    exact (hb.free hnone).2 hmem
  have hheld := hb.held p hlock
  have hin := Pc.inside_of_waits (hheld.queue hmem).1
  have hdev := hb.dev_of_inside hin
  obtain ⟨hondisk, hdata⟩ := hblock hdev (hheld.clean hin)
  have hself : s'.buf b = { s.buf b with valid := true, dirty := false, data := d } := by
    rw [hbuf, update_self]
  refine h.act hbuf (fun _ _ => by rw [hedited]) (fun a ha => ?_) (fun a _ q => ?_) (fun _ => .rfl)
    (fun n _ => by rw [haccesses]) hdisk (fun n hn _ => ?_) (by rwa [hrest]) ?_
    (by rw [haccesses]; exact h.faithful) ?_
  · rw [hrest, hqueue, List.mem_cons, or_iff_right ha]
  · rw [hthread]
    exact .inl rfl
  · rw [haccesses, ← hn.2]
    exact hondisk
  · exact h.order.imp fun _ hl => hl.congr hlist.1 hlist.2.1 hlist.2.2
  · refine hb.holder hself (by rw [hthread]; exact (update_eq_self p s.thread).symm) (.inl hlock)
      (.inl hlock) rfl (fun _ hn => hn) (fun n hn => ?_) (fun _ => hlock) (fun _ => ?_)
      (fun hnone => absurd (hlock.symm.trans hnone) nofun) ⟨nofun, fun _ => hdev⟩ fun _ _ => ?_
    · rw [hn] at hin
      cases hin
    · refine ⟨fun hno => ?_, fun hyes => ?_, fun _ => by rw [hself], fun n hyes hr => ?_⟩
      · rw [hrest] at hno
        exact absurd hno hout
      · rw [hedited]
        exact hheld.clean hyes
      · rw [hself]
        exact hheld.carries n hyes hr
    · rw [haccesses]
      exact hdata

theorem Inv.ideintr (h : Inv init s) (hs : ideintr s = some s') : Inv init s' := by
  unfold Bcache.ideintr at hs
  split at hs
  next => cases hs
  next b l hqueue =>
    obtain ⟨-, ⟨⟩⟩ := ite_none_right_eq_some.1 hs
    unfold State.transfer
    dsimp only
    split
    next hdirty =>
      refine h.transfer hqueue rfl ⟨rfl, rfl, rfl⟩ ⟨rfl, rfl, rfl⟩ rfl (fun n hn => ?_) fun hdev he => ?_
      · refine update_of_ne (fun heq => hn ?_) ..
        obtain ⟨hdev, hn⟩ := Prod.mk.inj heq
        exact ⟨hdev.symm, hn.symm⟩
      · have hcopy := (h.sound b).copy ((h.sound b).flags.1 hdirty) he
        grind
    next hclean =>
      rw [Bool.not_eq_true] at hclean
      refine h.transfer hqueue rfl ⟨rfl, rfl, rfl⟩ ⟨rfl, rfl, rfl⟩ rfl (fun _ _ => rfl) fun hdev _ => ?_
      have hblock := h.clean_self (b := b) ⟨hdev, rfl⟩ hclean
      exact ⟨hblock, by rw [hdev]; exact hblock⟩

/-! ## Runs -/

theorem Inv.run (h : Inv init s) (hs : run s p = some s') : Inv init s' := by
  unfold Bcache.run at hs
  split at hs
  next => cases hs
  next hpc =>
    obtain ⟨hlock, ⟨⟩⟩ := ite_none_right_eq_some.1 hs
    exact h.acquiresleep hpc hlock
  next b n hpc =>
    obtain ⟨-, hheld⟩ := h.within (b := b) hpc (by simp [Pc.inside])
    split at hs
    next hvalid =>
      cases hs
      exact h.finish hpc (by simp [Pc.inside]) (.inr rfl) rfl hvalid fun hmem => nomatch (hheld.queue hmem).1
    next =>
      cases hs
      refine h.goto (b := b) hpc (by simp [Pc.inside]) (.inr rfl) (.inr rfl) rfl (fun _ => nofun) fun _ => ?_
      refine ⟨fun hmem => (nomatch (hheld.queue hmem).1), fun _ => hheld.clean (by simp [Pc.inside]), ?_, ?_⟩
      · rintro (hno | hno)
        · simp [Pc.inside] at hno
        · cases hno
      · exact fun m _ hm => hheld.carries m (by simp [Pc.inside]) hm
  next hpc =>
    split at hs
    next => cases hs
    next hgo =>
      cases hs
      exact h.iderw hpc fun hdone => hgo (.inl hdone)
  next b n hpc =>
    obtain ⟨hdone, ⟨⟩⟩ := ite_none_right_eq_some.1 hs
    obtain ⟨-, hheld⟩ := h.within (b := b) hpc (by simp [Pc.inside])
    exact h.finish hpc (by simp [Pc.inside]) (.inr rfl) rfl hdone.1 fun hmem => (hheld.queue hmem).2 hdone
  next hpc =>
    cases hs
    exact h.unref hpc

theorem Inv.step (h : Inv init s) (hs : Step s s') : Inv init s' := by
  obtain ⟨e, he⟩ := hs
  cases e with
  | bread p n =>
    obtain ⟨hpc, he⟩ := ite_none_right_eq_some.1 he
    exact h.bget hpc he
  | modify p b d =>
    obtain ⟨hh, ⟨⟩⟩ := ite_none_right_eq_some.1 he
    exact h.modify hh d
  | logWrite p b =>
    obtain ⟨hh, ⟨⟩⟩ := ite_none_right_eq_some.1 he
    exact h.logWrite hh
  | bwrite p b =>
    obtain ⟨hh, ⟨⟩⟩ := ite_none_right_eq_some.1 he
    exact h.store hh _ (.inr rfl) rfl (fun _ => nofun) rfl
  | brelse p b =>
    obtain ⟨⟨hh, hedited⟩, ⟨⟩⟩ := ite_none_right_eq_some.1 he
    exact h.releasesleep hh hedited
  | run p => exact h.run he
  | ideintr => exact h.ideintr he

end Steps

theorem circle_foldl (l acc : List Buf) {k : Links Node} (hk : Circle k none (acc.map some))
    (hnodup : l.Nodup) (hdisjoint : ∀ b ∈ l, b ∉ acc) :
    Circle (l.foldl (fun k b => k.pushFront none (some b)) k) none ((l.reverse ++ acc).map some) := by
  induction l generalizing acc k with
  | nil => exact hk
  | cons b l ih =>
    obtain ⟨hb, hl⟩ := List.nodup_cons.1 hnodup
    have hout : some b ∉ none :: acc.map some := by simpa using hdisjoint b (List.mem_cons_self ..)
    have hnext := ih (b :: acc) (hk.pushFront hout) hl fun c hc hmem => ?_
    all_goals grind

theorem circle_binit : Circle binit none ((List.finRange NBUF).reverse.map some) := by
  have hloop := circle_foldl (List.finRange NBUF) [] (k := ⟨fun _ => none, fun _ => none⟩)
    (Circle.nil rfl rfl) (List.nodup_finRange NBUF) fun _ _ => List.not_mem_nil
  rwa [List.append_nil] at hloop

theorem inv_boot (P : Type) (blank : D) (disk : Nat × Nat → D) :
    Inv (fun n => disk (ROOTDEV, n)) (boot P blank disk) where
  sound b := {
    count := ⟨0, Total.zero _ fun _ => rfl, rfl⟩
    wants := nofun
    inside := nofun
    free := fun _ => ⟨rfl, List.not_mem_nil⟩
    held := nofun
    flags := ⟨nofun, nofun⟩
    copy := nofun }
  unique _ _ _ ha := nomatch ha.1
  clean _ _ := rfl
  nodup := List.nodup_nil
  order := by
    refine ⟨_, circle_binit, List.reverse_perm _, ?_, fun _ => Nat.le_refl 0⟩
    exact List.pairwise_of_forall fun _ _ => .inr rfl
  faithful := faithful_nil

section Main

def Buffer.key (e : Buffer P D) : Nat × Nat := (e.dev, e.blockno)

theorem key_update {e : Buffer P D} (hbuf : s'.buf = update s.buf a e)
    (he : e.key = (s.buf a).key) : (s'.buf b).key = (s.buf b).key := by
  rw [hbuf]
  grind

theorem key_of_ideintr (hs : ideintr s = some s') : (s'.buf b).key = (s.buf b).key := by
  unfold Bcache.ideintr at hs
  split at hs
  next => cases hs
  next =>
    obtain ⟨-, ⟨⟩⟩ := ite_none_right_eq_some.1 hs
    unfold State.transfer
    dsimp only
    split
    · exact key_update rfl rfl
    · exact key_update rfl rfl

variable [DecidableEq P]

theorem key_of_bget {l : List Buf} (hl : Ordered s l) (hs : bget s p n = some s')
    (hne : (s'.buf b).key ≠ (s.buf b).key) : (s.buf b).Unused := by
  unfold Bcache.bget at hs
  rw [hl.cached, hl.unused] at hs
  split at hs
  next heq => cases heq
  next =>
    cases hs
    exact (hne (key_update rfl rfl)).elim
  next =>
    split at hs
    next c heq =>
      have hfound := List.find?_some (Option.some.inj heq)
      rw [decide_eq_true_eq] at hfound
      cases hs
      rcases eq_or_ne b c with rfl | hb
      · exact hfound
      · exact (hne (congrArg Buffer.key (update_of_ne hb ..))).elim
    next => cases hs

theorem key_finish {r : Option Nat} : ((finish s p a r).buf b).key = (s.buf b).key := by
  cases r <;> rfl

theorem key_of_run (hs : run s p = some s') : (s'.buf b).key = (s.buf b).key := by
  unfold Bcache.run at hs
  split at hs
  next => cases hs
  next =>
    obtain ⟨-, ⟨⟩⟩ := ite_none_right_eq_some.1 hs
    exact key_update rfl rfl
  next =>
    split at hs
    · cases hs
      exact key_finish
    · cases hs
      rfl
  next =>
    split at hs
    · cases hs
    · cases hs
      rfl
  next =>
    obtain ⟨-, ⟨⟩⟩ := ite_none_right_eq_some.1 hs
    exact key_finish
  next =>
    cases hs
    unfold State.unref
    split
    · exact key_update rfl rfl
    · exact key_update rfl rfl

theorem key_of_step {l : List Buf} (hl : Ordered s l) (hs : Step s s')
    (hne : (s'.buf b).key ≠ (s.buf b).key) : (s.buf b).Unused := by
  obtain ⟨e, he⟩ := hs
  cases e with
  | bread p n => exact key_of_bget hl (ite_none_right_eq_some.1 he).2 hne
  | modify p a d | logWrite p a | bwrite p a | brelse p a =>
    obtain ⟨-, ⟨⟩⟩ := ite_none_right_eq_some.1 he
    exact (hne (key_update rfl rfl)).elim
  | run p => exact absurd (key_of_run he) hne
  | ideintr => exact absurd (key_of_ideintr he) hne

/-- In every run: a block is in at most one buffer, a buffer that is in use or dirty is not given to
another block, the list goes through every buffer once, the one released last at the front, so that the
loops over it come to an end, `refcnt` counts the holder of the sleep-lock and the calls that wait for it or have just
let it go, and the accesses are those of a plain store. -/
theorem buffer_cache_refines {blank : D} {disk : Nat × Nat → D}
    (hreach : Relation.ReflTransGen Step (boot P blank disk) s) :
    (∀ a b n, (s.buf a).Carries n → (s.buf b).Carries n → a = b) ∧
      (∀ s', Step s s' → ∀ b, ((s'.buf b).dev, (s'.buf b).blockno) ≠ ((s.buf b).dev, (s.buf b).blockno) →
        (s.buf b).refcnt = 0 ∧ (s.buf b).dirty = false) ∧
      (∃ l : List Buf, Circle s.links none (l.map some) ∧ l.Perm (List.finRange NBUF) ∧
        l.Pairwise fun a b => s.fell b < s.fell a ∨ s.fell b = 0) ∧
      ((∀ n, s.cached n ≠ none) ∧ s.unused ≠ none) ∧
      (∀ b, ∃ A : Finset P, (∀ p, p ∈ A ↔ (s.thread p).counts b = true) ∧
        (s.buf b).refcnt = A.card + (s.buf b).lock.isSome.toNat) ∧
      Faithful (fun n => disk (ROOTDEV, n)) s.accesses := by
  have h : Inv (fun n => disk (ROOTDEV, n)) s :=
    invariant_of_reachable (Inv _) (inv_boot P blank disk) (fun _ _ hi hs => hi.step hs) hreach
  obtain ⟨l, hl⟩ := h.order
  refine ⟨h.unique, fun s' hs b hne => key_of_step hl hs hne, ⟨l, hl.circle, hl.all, hl.sorted⟩,
    ⟨fun n => ?_, ?_⟩, fun b => ?_, h.faithful⟩
  · rw [hl.cached]
    exact nofun
  · rw [hl.unused]
    exact nofun
  · obtain ⟨m, htotal, href⟩ := (h.sound b).count
    obtain ⟨A, hA, rfl⟩ := htotal.card
    exact ⟨A, hA, href⟩

end Main

/-- Block 100 is changed and written, and read again after another process has read block 101. -/
def rereadRun : List (Event Bool Nat) :=
  [.bread true 100, .run true, .run true, .run true, .ideintr, .run true, .modify true 0 7, .bwrite true 0,
    .run true, .ideintr, .run true, .brelse true 0, .run true,
    .bread false 101, .run false, .run false, .run false, .ideintr, .run false,
    .bread true 100, .run true, .run true]

theorem buffer_cache_refines_reread :
    ∃ s : State Bool Nat, s.accesses = [.read 100 0, .write 100 7, .read 101 0, .read 100 7] ∧
      Faithful (fun _ => 0) s.accesses := by
  have hrun : (rereadRun.foldlM step (boot Bool 0 fun _ => 0)).map (fun s => s.accesses) =
      some [.read 100 0, .write 100 7, .read 101 0, .read 100 7] := by
    decide +kernel
  obtain ⟨s, hs, haccesses⟩ := Option.map_eq_some_iff.1 hrun
  exact ⟨s, haccesses, (buffer_cache_refines (reachable_of_foldlM rereadRun hs)).2.2.2.2.2⟩

end AsoPracticas.Xv6.Bcache
