import AsoPracticas.Xv6.GroupCommit

/-!
# Admission — begin_op reserves room for the blocks that log_write takes

`begin_op` admits an operation if the header has room for `MAXOPBLOCKS` blocks of every outstanding
operation.  The blocks that the outstanding operations may still log are the reservation; `Reserved M`
says that it fits in `M` blocks together with the header.
-/

namespace AsoPracticas.Xv6.GroupCommit

open Lib

/-- `nlog` of `mkfs.c`: the blocks of the log area, the header block among them. -/
def nlog : Nat := LOGSIZE

variable {ι : Type*}

/-- A call of `log_write` keeps to the `MAXOPBLOCKS` distinct blocks of an operation. -/
def Quota (s : State ι) : Event ι → Prop
  | .logWrite p b => ((s.pc p).logged.insert b).length ≤ MAXOPBLOCKS
  | _ => True

instance (s : State ι) : (e : Event ι) → Decidable (Quota s e)
  | .logWrite _ _ => inferInstanceAs (Decidable (_ ≤ _))
  | .beginOp _ | .endOp _ | .run _ | .kill _ => inferInstanceAs (Decidable True)

/-- An operation admitted by `begin_op` reserves at most `M` blocks with those before it. -/
def AdmitsWithin (M : Int) (s : State ι) : Event ι → Prop
  | .run p => s.pc p = .beginLoop → s.committing = false → ¬ s.full →
      (s.lh.length : Int) + (s.outstanding + 1) * MAXOPBLOCKS ≤ M
  | _ => True

def Pc.room (c : Pc) : ℕ :=
  c.active * (MAXOPBLOCKS - c.logged.length)

/-- A call of `log_write` under way keeps to the quota. -/
def Pc.WithinQuota : Pc → Prop
  | .logAcquire l b | .logLocked l b => (l.insert b).length ≤ MAXOPBLOCKS
  | _ => True

/-- The header and the reservation fit in `M` blocks. -/
@[grind cases eager]
structure Reserved (M : Int) (s : State ι) : Prop where
  fits : ∃ n : ℕ, Total Pc.room s.pc n ∧ (s.lh.length + n : Int) ≤ M
  quota : ∀ p, (s.pc p).WithinQuota

theorem Reserved.length_le {M : Int} {s : State ι} (h : Reserved M s) : (s.lh.length : Int) ≤ M := by
  obtain ⟨n, -, hn⟩ := h.fits
  omega

theorem Reserved.initial {M : Int} (hM : 0 ≤ M) : Reserved M (initial : State ι) where
  fits := ⟨0, Total.zero _ fun _ => rfl, by simpa [GroupCommit.initial] using hM⟩
  quota := fun _ => trivial

theorem Reserved.wakeup {M : Int} {s : State ι} (h : Reserved M s) : Reserved M s.wakeup where
  fits := by
    obtain ⟨n, htotal, hn⟩ := h.fits
    exact ⟨n, htotal.comp (wake_congr Pc.room rfl), hn⟩
  quota := by
    intro q
    have hq := h.quota q
    cases hc : s.pc q <;> simp_all [State.wakeup, wake, Pc.WithinQuota]

section Steps

variable [DecidableEq ι] {s s' : State ι} {p : ι} {M : Int}

theorem Reserved.move (h : Reserved M s) {c0 c : Pc} (hp : s.pc p = c0) (hpc : s'.pc = Function.update s.pc p c)
    (hroom : s'.lh.length + c.room ≤ s.lh.length + c0.room) (hc : c.WithinQuota) :
    Reserved M s' where
  fits := by
    obtain ⟨n, htotal, hn⟩ := h.fits
    have hle := htotal.le p
    rw [hp] at hle
    refine ⟨n - c0.room + c.room, ?_, ?_⟩
    · rw [hpc]
      exact htotal.goto hp (by omega)
    · push_cast
      omega
  quota := by
    intro q
    rw [hpc]
    grind

theorem Reserved.acquire (h : Reserved M s) {c0 c : Pc} (hs : s.acquire p c = some s')
    (hp : s.pc p = c0) (hroom : c.room = c0.room) (hc : c.WithinQuota) : Reserved M s' := by
  obtain ⟨-, rfl⟩ := acquire_eq_some hs
  exact h.move hp rfl (by rw [hroom]; rfl) hc

theorem Reserved.admit (hinv : Inv s) (h : Reserved M s) (hp : s.pc p = .beginLoop)
    (hM : (s.lh.length : Int) + (s.outstanding + 1) * MAXOPBLOCKS ≤ M) :
    Reserved M { s.goto p .beginRelease with outstanding := s.outstanding + 1 } where
  fits := by
    obtain ⟨n, htotal, -⟩ := h.fits
    -- the reservation before is at most `MAXOPBLOCKS` blocks an operation
    have hle : n ≤ MAXOPBLOCKS * s.outstanding.toNat := by
      apply htotal.le_mul hinv.counted
      intro c
      rw [Pc.room, Nat.mul_comm]
      exact Nat.mul_le_mul_right _ (Nat.sub_le ..)
    have hnonneg := hinv.nonneg
    refine ⟨n + MAXOPBLOCKS, htotal.goto hp rfl, ?_⟩
    simp only [MAXOPBLOCKS, State.goto] at hM hle ⊢
    omega
  quota := by
    intro q
    by_cases hq : q = p
    · simp [hq, State.goto, Pc.WithinQuota]
    · simpa [hq, State.goto] using h.quota q

theorem Reserved.absorb (hinv : Inv s) (h : Reserved M s) {l lh : List UInt32} {b : UInt32}
    (hp : s.pc p = .logLocked l b) (hlh : absorb s.lh b = some lh) :
    Reserved M { s.release p (.inOp (l.insert b)) with lh := lh } := by
  have hquota : (l.insert b).length ≤ MAXOPBLOCKS := by
    have hq := h.quota p
    rwa [hp] at hq
  have hroom : ∀ k : List UInt32, (Pc.inOp k).room = MAXOPBLOCKS - k.length := fun k => Nat.one_mul _
  have hroom0 : (Pc.logLocked l b).room = MAXOPBLOCKS - l.length := Nat.one_mul _
  refine h.move (c := .inOp (l.insert b)) hp rfl ?_ trivial
  unfold GroupCommit.absorb at hlh
  split_ifs at hlh with hb
  · cases hlh
    have hlen : l.length ≤ (l.insert b).length := (List.sublist_insert b l).length_le
    rw [hroom, hroom0]
    change s.lh.length + _ ≤ _
    omega
  · -- a block that is not in the header is new for this operation as well
    have hbl : b ∉ l := fun hmem => hb ((hinv.contents b).2 (.inr ⟨p, by rwa [hp]⟩))
    grind

theorem Reserved.advance (hinv : Inv s) (h : Reserved M s) (hM : AdmitsWithin M s (.run p))
    (hs : advance s p = some s') : Reserved M s' := by
  have hquota := h.quota p
  unfold GroupCommit.advance at hs
  split at hs <;> rename_i hp <;> rw [hp] at hquota
  · exact h.acquire hs hp rfl trivial
  · split at hs
    · cases hs
      exact h.move hp rfl le_rfl trivial
    · split at hs <;> cases hs
      · exact h.move hp rfl le_rfl trivial
      · exact h.admit hinv hp (hM hp (by simpa using ‹¬ s.committing = true›) ‹_›)
  · cases hs
    exact h.move hp rfl le_rfl trivial
  · exact h.acquire hs hp rfl hquota
  · split at hs <;> cases hs
    · exact h.absorb hinv hp ‹_›
    · exact ⟨h.fits, h.quota⟩
  · exact h.acquire hs hp rfl trivial
  · split at hs <;> cases hs
    · exact ⟨h.fits, h.quota⟩
    · exact h.move hp rfl (Nat.add_le_add_left (Nat.zero_le _) _) trivial
  · split at hs <;> cases hs
    · exact h.move hp rfl le_rfl trivial
    · have hp' : s.wakeup.pc p = .endTest := by simp [State.wakeup, hp, wake]
      exact h.wakeup.move hp' rfl le_rfl trivial
  · split at hs <;> cases hs <;> exact h.move hp rfl le_rfl trivial
  · cases hs
    exact h.move hp rfl (Nat.add_le_add_right (Nat.zero_le _) _) trivial
  · exact h.acquire hs hp rfl trivial
  · cases hs
    exact h.move hp rfl le_rfl trivial
  · cases hs
    have hp' : s.wakeup.pc p = .doneWakeup := by simp [State.wakeup, hp, wake]
    exact h.wakeup.move hp' rfl le_rfl trivial
  all_goals cases hs

theorem Reserved.step (hinv : Inv s) (h : Reserved M s) {size : Int} {e : Event ι}
    (hquota : Quota s e) (hM : AdmitsWithin M s e) (hs : step size s e = some s') :
    Reserved M s' := by
  unfold GroupCommit.step at hs
  split at hs
  · cases hs
  · cases e with
    | run p => exact h.advance hinv hM hs
    | logWrite p b =>
      dsimp only at hs
      split at hs <;> cases hs
      rename_i l hp
      rw [Quota, hp] at hquota
      rw [logTests]
      split
      · exact ⟨h.fits, h.quota⟩
      · split
        · exact ⟨h.fits, h.quota⟩
        · exact h.move hp rfl le_rfl hquota
    | beginOp p | endOp p | kill p =>
      dsimp only at hs
      split at hs <;> cases hs
      rename_i hp
      exact h.move hp rfl le_rfl trivial

/-- Along a run that keeps to the quota and to admissions within `M`, the header has at most `M`
blocks. -/
theorem reserved_of_reachable {size : Int} {ok : State ι → Event ι → Prop} (hM : 0 ≤ M)
    (hok : ∀ s e, ok s e → Quota s e ∧ AdmitsWithin M s e) (h : Reachable size ok s) :
    Inv s ∧ Reserved M s := by
  refine invariant_of_reachable (fun s => Inv s ∧ Reserved M s) ⟨Inv.initial, .initial hM⟩ ?_ h
  rintro s s' ⟨hinv, hres⟩ ⟨e, he, hs⟩
  exact ⟨hinv.step hs, hres.step hinv (hok s e he).1 (hok s e he).2 hs⟩

theorem stop_advance (hstop : s.stop = none) (hs : advance s p = some s') : s'.stop ≠ some (.panic .tooBig) := by
  unfold advance at hs
  split at hs
  case h_5 => grind [State.release, State.goto]
  case h_1 | h_4 | h_6 | h_11 =>
    rw [(acquire_eq_some hs).2]
    simp [State.goto, hstop]
  all_goals grind [State.release, State.goto, State.panic, State.wakeup]

/-- Only the first test of `log_write` stops the system for a transaction that is too big. -/
theorem stop_step {size : Int} {e : Event ι} (hs : step size s e = some s')
    (hroom : (s.lh.length : Int) < LOGSIZE ∧ (s.lh.length : Int) < size - 1) :
    s'.stop ≠ some (.panic .tooBig) := by
  unfold step at hs
  split at hs
  · cases hs
  · rename_i hstop
    rw [not_not] at hstop
    cases e with
    | run p => exact stop_advance hstop hs
    | logWrite p b => grind [logTests, State.panic, State.goto]
    | beginOp p | endOp p | kill p =>
      dsimp only at hs
      split at hs <;> cases hs
      simp [State.goto, hstop]

end Steps

/-- The admissions of a run leave the last block of the log area free: the header and the quota of
every outstanding operation fit in `log.size - 2` blocks. -/
def Roomy (s : State ι) : Event ι → Prop :=
  AdmitsWithin (nlog - 2) s

/-- With the log area that `mkfs` makes, operations that keep to their quota never log too big a
transaction as long as `begin_op` admits them only within `log.size - 2` blocks. -/
theorem admission_sound_of_roomy [DecidableEq ι] {s : State ι}
    (h : Reachable nlog (fun s e => Quota s e ∧ Roomy s e) s) :
    s.stop ≠ some (.panic .tooBig) := by
  rcases h.cases_tail with rfl | ⟨t, ht, e, -, hs⟩
  · simp [initial]
  · have hle := (reserved_of_reachable (by decide) (fun _ _ hok => hok) ht).2.length_le
    apply stop_step hs
    rw [nlog] at hle ⊢
    omega

instance (s : State ι) : (e : Event ι) → Decidable (Roomy s e)
  | .run _ => inferInstanceAs (Decidable (_ → _ → ¬ _ → _ ≤ _))
  | .beginOp _ | .endOp _ | .logWrite _ _ | .kill _ => inferInstanceAs (Decidable True)

/-- Processes `0` to `k - 1` begin an operation each. -/
def beginEvents (k : ℕ) : List (Event ℕ) :=
  (List.range k).flatMap fun p => [.beginOp p, .run p, .run p, .run p]

/-- Process `p` logs `k` blocks of its own. -/
def logEvents (p k : ℕ) : List (Event ℕ) :=
  (List.range k).flatMap fun i => [.logWrite p (UInt32.ofNat (60 + 10 * p + i)), .run p, .run p]

theorem admission_sound_of_roomy_two :
    ∃ s : State ℕ, s.lh.length = 20 ∧ s.stop ≠ some (.panic .tooBig) := by
  have hplay : (play nlog (fun s e => Quota s e ∧ Roomy s e) initial
      (beginEvents 2 ++ logEvents 0 10 ++ logEvents 1 10)).map (fun s => s.lh.length) = some 20 := by
    decide +kernel
  obtain ⟨s, hs, hlen⟩ := Option.map_eq_some_iff.1 hplay
  exact ⟨s, hlen, admission_sound_of_roomy (reachable_play .refl hs)⟩

/-- Three operations that keep to their quota: the last one cannot log its tenth block. -/
theorem admission_too_big :
    ¬ ∀ s : State ℕ, Reachable nlog Quota s → s.stop ≠ some (.panic .tooBig) := by
  have hplay : (play nlog Quota initial (beginEvents 3 ++ logEvents 0 10 ++ logEvents 1 10 ++
      logEvents 2 9 ++ [.logWrite 2 89])).map (fun s => s.stop) = some (some (.panic .tooBig)) := by
    decide +kernel
  obtain ⟨s, hs, hstop⟩ := Option.map_eq_some_iff.1 hplay
  exact fun hsound => hsound s (reachable_play .refl hs) hstop

end AsoPracticas.Xv6.GroupCommit
