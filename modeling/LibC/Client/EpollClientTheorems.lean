/-
LibC.Client.EpollClientTheorems — what `Writen` makes of the answers of `write`.

The number that `write` answers is kept in an unsigned variable, so an error is
taken for `2 ^ 32 - 1` bytes written (`step_error`), and `EINTR` is not
recognised. As long as there is none, what is left and the pointer add up
(`Going`), and a run ends with all bytes delivered or at a `0`. So `Writen` does
what it should do exactly in the runs without an error (`delivers_iff`), but for
one: when the first `write` of `2 ^ 32 - 1` bytes fails, nothing is left after
it, and the number returned is that of a failure.

No `sorry`, no `axiom`, no `native_decide`.
-/
import LibC.Client.EpollClient
import Mathlib.Algebra.BigOperators.Group.List.Basic
import Mathlib.Algebra.Order.Ring.Int

namespace LibC.Writen

open LibC.Lib

variable {n : UInt32} {outs past rest : List SockWrite} {w : SockWrite} {s s' : Writen}

/-! ## The property -/

/-- What a `write` of so many bytes can answer. -/
def Answers (w : SockWrite) (s : Writen) : Prop :=
  s.ret = none → 0 < w.ret ∧ w.ret ≤ s.nleft.toNat ∨ w.ret = 0 ∨ w.ret = -1

/-- `Writen` delivers everything, or reports failure: when it returns `n`, the socket has taken
all bytes in order; at a `0` or an error it returns `-1`, but after `EINTR` it makes the same call
again; and the pointer it passes is one into the buffer. -/
def Delivers (n : UInt32) (outs : List SockWrite) : Prop :=
  (∀ s r, run (step n) outs (init n) = some s → s.ret = some r → r.toInt = n.toNat →
    s.taken = List.range n.toNat) ∧
  ∀ past w rest s s', outs = past ++ w :: rest → run (step n) past (init n) = some s →
    step n w s = some s' → s.ptr < n.toNat ∧
      (w.ret = 0 ∨ w.ret = -1 ∧ w.errno ≠ eintr → s'.ret = some (-1)) ∧
      (w.ret = -1 ∧ w.errno = eintr → s' = s)

/-- How many bytes were written. -/
def written (outs : List SockWrite) : ℕ := (outs.map fun w => w.ret.toNat).sum

/-- No `write` answers `-1`, before all is written or one answers `0`; but the first one of
`2 ^ 32 - 1` bytes may fail for another reason than `EINTR`. -/
def NoError (n : UInt32) (outs : List SockWrite) : Prop :=
  ∀ past w rest, outs = past ++ w :: rest → (∀ v ∈ past, 0 < v.ret) → written past < n.toNat →
    w.ret = -1 → past = [] ∧ n.toNat = 2 ^ 32 - 1 ∧ w.errno ≠ eintr

/-! ## One call -/

/-- The loop goes on after the bytes that `write` has taken so far. -/
structure Going (n : UInt32) (past : List SockWrite) (s : Writen) : Prop where
  ret : s.ret = none
  left : s.nleft.toNat + s.ptr = n.toNat
  pos : 0 < s.nleft.toNat
  ptr : s.ptr = written past
  taken : s.taken = List.range s.ptr

/-- The loop has ended with everything delivered. -/
structure Done (n : UInt32) (past : List SockWrite) (s : Writen) : Prop where
  ret : s.ret = some n.toInt32
  taken : s.taken = List.range n.toNat
  all : written past = n.toNat

/-- The loop has ended with a failure. -/
def Failed (s : Writen) : Prop := s.ret = some (-1)

/-- The head of the loop, when what is left and the pointer add up. -/
theorem loopHead_spec (hret : s.ret = none) (hleft : s.nleft.toNat + s.ptr = n.toNat)
    (hptr : s.ptr = written past) (htaken : s.taken = List.range s.ptr) :
    Going n past (loopHead n s) ∨ Done n past (loopHead n s) := by
  rw [loopHead]
  split
  · next hpos => exact Or.inl ⟨hret, hleft, UInt32.lt_iff_toNat_lt.mp hpos, hptr, htaken⟩
  · next hpos =>
      have hzero : s.nleft = 0 := by
        have hle := UInt32.le_iff_toNat_le.mp (UInt32.not_lt.mp hpos)
        exact UInt32.toNat_inj.mp (Nat.le_zero.mp hle)
      rw [hzero, UInt32.toNat_zero, Nat.zero_add] at hleft
      refine Or.inr ⟨?_, ?_, hptr.symm.trans hleft⟩
      · rw [hzero, UInt32.sub_zero]
      · rw [htaken, hleft]

/-- The loop before the first call. -/
theorem init_spec (n : UInt32) : Going n [] (init n) ∨ Done n [] (init n) :=
  loopHead_spec rfl rfl rfl rfl

/-- What `write` has taken is what it answers. -/
theorem toNat_ofInt {w : SockWrite} (hpos : 0 < w.ret) (hle : w.ret ≤ s.nleft.toNat) :
    (UInt32.ofInt w.ret).toNat = w.ret.toNat := by
  have hlt := s.nleft.toNat_lt
  rw [UInt32.ofInt, UInt32.toNat_ofNat']
  omega

/-- No number is below zero, so `EINTR` is not recognised. -/
theorem step_eq (h : Going n past s) (w : SockWrite) : step n w s =
    some (if UInt32.ofInt w.ret = 0 then
      { s with taken := s.taken ++ List.range' s.ptr w.ret.toNat, ret := some (-1) }
    else advance n (UInt32.ofInt w.ret)
      { s with taken := s.taken ++ List.range' s.ptr w.ret.toNat }) := by
  have hlt : ¬ UInt32.ofInt w.ret < 0 := UInt32.not_lt_zero
  rw [step, if_neg (not_not.mpr h.ret)]
  simp only [UInt32.le_zero_iff, hlt, false_and, if_false]
  split <;> rfl

/-- A `0` ends the loop with a failure. -/
theorem step_zero (h : Going n past s) (hret : w.ret = 0) :
    ∃ s', step n w s = some s' ∧ Failed s' := by
  have hzero : UInt32.ofInt w.ret = 0 := by
    rw [hret]
    rfl
  exact ⟨_, step_eq h w, by rw [if_pos hzero]; rfl⟩

/-- Bytes that were written are not left, and the pointer is behind them. -/
theorem step_pos (h : Going n past s) (hpos : 0 < w.ret) (hle : w.ret ≤ s.nleft.toNat) :
    ∃ s', step n w s = some s' ∧ (Going n (past ++ [w]) s' ∨ Done n (past ++ [w]) s') := by
  have hnat := toNat_ofInt hpos hle
  have hne : ¬ UInt32.ofInt w.ret = 0 := by
    intro heq
    rw [heq, UInt32.toNat_zero] at hnat
    omega
  refine ⟨_, step_eq h w, ?_⟩
  rw [if_neg hne, advance]
  refine loopHead_spec h.ret ?_ ?_ ?_
  · have hsub : UInt32.ofInt w.ret ≤ s.nleft := by
      rw [UInt32.le_iff_toNat_le, hnat]
      omega
    have hleft := h.left
    simp only [UInt32.toNat_sub_of_le _ _ hsub, hnat]
    omega
  · simp [hnat, h.ptr, written]
  · rw [h.taken, hnat, List.range_eq_range', List.range_eq_range', ← List.range'_append_1]
    simp

/-- An error is taken for `2 ^ 32 - 1` bytes written: one more is left. -/
theorem step_error (h : Going n past s) (hret : w.ret = -1) : ∃ s', step n w s = some s' ∧
    s' ≠ s ∧ (s.nleft.toNat = 2 ^ 32 - 1 → s'.ret = some n.toInt32) ∧
      (s.nleft.toNat ≠ 2 ^ 32 - 1 → s'.ret = none) := by
  have hmax : UInt32.ofInt w.ret = 4294967295 := by
    rw [hret]
    rfl
  have hne : ¬ UInt32.ofInt w.ret = 0 := by
    rw [hmax]
    decide
  have hnext : s.nleft - 4294967295 = s.nleft + 1 := by
    have hmax' : (4294967295 : UInt32).toNat = 2 ^ 32 - 1 := rfl
    rw [← UInt32.toNat_inj, UInt32.toNat_sub, UInt32.toNat_add, hmax', UInt32.toNat_one]
    omega
  refine ⟨_, step_eq h w, ?_⟩
  rw [if_neg hne, hmax, advance, hnext, loopHead]
  have hlt := s.nleft.toNat_lt
  have hnat : (s.nleft + 1).toNat = (s.nleft.toNat + 1) % 2 ^ 32 := UInt32.toNat_add ..
  split
  · next hpos =>
      have hpos' : 0 < (s.nleft + 1).toNat := UInt32.lt_iff_toNat_lt.mp hpos
      refine ⟨fun heq => ?_, fun hmost => ?_, fun _ => h.ret⟩
      · have hsame : (s.nleft + 1).toNat = s.nleft.toNat :=
          congrArg (fun r : Writen => r.nleft.toNat) heq
        omega
      · rw [hnat, hmost] at hpos'
        cases hpos'
  · next hpos =>
      have hzero : s.nleft + 1 = 0 := by
        have hle := UInt32.le_iff_toNat_le.mp (UInt32.not_lt.mp hpos)
        exact UInt32.toNat_inj.mp (Nat.le_zero.mp hle)
      have hmost : s.nleft.toNat = 2 ^ 32 - 1 := by
        have hzero' := congrArg UInt32.toNat hzero
        rw [hnat, UInt32.toNat_zero] at hzero'
        omega
      refine ⟨fun heq => ?_, fun _ => ?_, fun hne => absurd hmost hne⟩
      · have hret' := congrArg Writen.ret heq
        rw [h.ret] at hret'
        cases hret'
      · rw [hzero, UInt32.sub_zero]

/-! ## Runs -/

/-- After the return there is no call. -/
theorem Going.of_step (h : Going n past s ∧ (∀ w ∈ past, 0 < w.ret) ∨ Done n past s ∨ Failed s)
    (hstep : step n w s = some s') : Going n past s ∧ ∀ w ∈ past, 0 < w.ret := by
  rcases h with h | h | h
  · exact h
  · rw [step, h.ret] at hstep
    cases hstep
  · rw [step, h] at hstep
    cases hstep

/-- While the loop goes on, not everything has been written. -/
theorem Going.written_lt (h : Going n past s) : written past < n.toNat := by
  have hleft := h.left
  have hpos := h.pos
  rw [← h.ptr]
  omega

theorem NoError.prefix (h : NoError n (past ++ rest)) : NoError n past :=
  fun as w bs heq hpos hlt hret => h as w (bs ++ rest) (by rw [heq]; simp) hpos hlt hret

/-- The number that is returned after the first call has failed. -/
theorem toInt32_max (h : n.toNat = 2 ^ 32 - 1) : n.toInt32 = -1 := by
  obtain rfl : n = 4294967295 := UInt32.toNat_inj.mp h
  rfl

/-- The one error that does no harm. -/
theorem step_harmless (h : Going n [] s) (hret : w.ret = -1) (hn : n.toNat = 2 ^ 32 - 1)
    (hstep : step n w s = some s') : Failed s' := by
  obtain ⟨m, hm, _, hmost, _⟩ := step_error h hret
  obtain rfl := Option.some.inj (hm.symm.trans hstep)
  have hleft := h.left
  rw [h.ptr, hn] at hleft
  rw [Failed, hmost hleft, toInt32_max hn]

/-- After calls without an error the loop goes on behind what was written, or everything is
delivered, or a failure has been reported. -/
theorem run_noError : ∀ {past : List SockWrite} {s : Writen}, NoError n past →
    Along (step n) Answers past (init n) → run (step n) past (init n) = some s →
      Going n past s ∧ (∀ w ∈ past, 0 < w.ret) ∨ Done n past s ∨ Failed s := by
  intro past
  induction past using List.reverseRecOn with
  | nil =>
      intro s _ _ hrun
      obtain rfl := Option.some.inj hrun
      exact (init_spec n).imp (fun h => ⟨h, fun w hw => by cases hw⟩) Or.inl
  | append_singleton past w ih =>
      intro s hno hans hrun
      obtain ⟨m, hm, hstep⟩ := run_concat.mp hrun
      obtain ⟨hpast, hlast⟩ := along_append.mp hans
      obtain ⟨hgoing, hpos⟩ := Going.of_step (ih hno.prefix hpast hm) hstep
      rcases (hlast m hm).1 hgoing.ret with ⟨hw, hle⟩ | hw | hw
      · obtain ⟨s', hs', hcases⟩ := step_pos hgoing hw hle
        obtain rfl := Option.some.inj (hs'.symm.trans hstep)
        refine hcases.imp (fun h => ⟨h, ?_⟩) Or.inl
        exact List.forall_mem_append.mpr ⟨hpos, List.forall_mem_singleton.mpr hw⟩
      · obtain ⟨s', hs', hfailed⟩ := step_zero hgoing hw
        obtain rfl := Option.some.inj (hs'.symm.trans hstep)
        exact Or.inr (Or.inr hfailed)
      · obtain ⟨rfl, hn, _⟩ := hno past w [] rfl hpos hgoing.written_lt hw
        exact Or.inr (Or.inr (step_harmless hgoing hw hn hstep))

/-- Calls that have not written everything leave the loop going. -/
theorem run_pos : ∀ {past : List SockWrite}, (∀ v ∈ past, 0 < v.ret) → written past < n.toNat →
    Along (step n) Answers past (init n) → ∃ s, run (step n) past (init n) = some s ∧
      Going n past s := by
  intro past
  induction past using List.reverseRecOn with
  | nil =>
      intro _ hlt _
      rcases init_spec n with h | h
      · exact ⟨_, rfl, h⟩
      · exact absurd h.all (Nat.ne_of_lt hlt)
  | append_singleton past w ih =>
      intro hpos hlt hans
      obtain ⟨hpast, hlast⟩ := along_append.mp hans
      obtain ⟨hpos, hw⟩ := List.forall_mem_append.mp hpos
      have hle : written past ≤ written (past ++ [w]) := by simp [written]
      obtain ⟨m, hm, hgoing⟩ := ih hpos (Nat.lt_of_le_of_lt hle hlt) hpast
      have hw := List.forall_mem_singleton.mp hw
      have hanswer : w.ret ≤ m.nleft.toNat := by
        rcases (hlast m hm).1 hgoing.ret with h | h | h <;> omega
      obtain ⟨s', hs', h | h⟩ := step_pos hgoing hw hanswer
      · exact ⟨s', run_concat.mpr ⟨m, hm, hs'⟩, h⟩
      · exact absurd h.all (Nat.ne_of_lt hlt)

/-- `Writen` delivers everything or reports failure exactly when no call that it makes answers
`-1`, or none but the first of `2 ^ 32 - 1` bytes. -/
theorem delivers_iff (hans : Along (step n) Answers outs (init n)) :
    Delivers n outs ↔ NoError n outs := by
  constructor
  · rintro ⟨-, hcalls⟩ past w rest rfl hpos hlt hret
    obtain ⟨hpast, _⟩ := along_append.mp hans
    obtain ⟨s, hrun, hgoing⟩ := run_pos hpos hlt hpast
    obtain ⟨s', hstep, hne, _, hnone⟩ := step_error hgoing hret
    obtain ⟨_, hfail, hintr⟩ := hcalls past w rest s s' rfl hrun hstep
    have herrno : w.errno ≠ eintr := fun heq => hne (hintr ⟨hret, heq⟩)
    have hmost : s.nleft.toNat = 2 ^ 32 - 1 := by
      by_contra hno
      rw [hnone hno] at hfail
      cases hfail (Or.inr ⟨hret, herrno⟩)
    -- nothing was written before
    have hleft := hgoing.left
    have hn := n.toNat_lt
    have hzero : written past = 0 := by
      rw [← hgoing.ptr]
      omega
    refine ⟨?_, by omega, herrno⟩
    cases past with
    | nil => rfl
    | cons v past =>
        have hv := hpos v List.mem_cons_self
        rw [written, List.map_cons, List.sum_cons] at hzero
        omega
  · intro hno
    refine ⟨fun s r hrun hret hr => ?_, ?_⟩
    · rcases run_noError hno hans hrun with ⟨h, _⟩ | h | h
      · rw [h.ret] at hret
        cases hret
      · exact h.taken
      · obtain rfl := Option.some.inj (h.symm.trans hret)
        have hneg : (-1 : Int32).toInt = -1 := rfl
        omega
    · rintro past w rest s s' rfl hrun hstep
      obtain ⟨hpast, _⟩ := along_append.mp hans
      obtain ⟨hgoing, hpos⟩ := Going.of_step (run_noError hno.prefix hpast hrun) hstep
      have hlt := hgoing.written_lt
      have herror := hno past w rest rfl hpos hlt
      refine ⟨hgoing.ptr ▸ hlt, ?_, fun ⟨hret, hintr⟩ => absurd hintr (herror hret).2.2⟩
      rintro (hret | ⟨hret, _⟩)
      · obtain ⟨m, hm, hfailed⟩ := step_zero hgoing hret
        obtain rfl := Option.some.inj (hm.symm.trans hstep)
        exact hfailed
      · obtain ⟨rfl, hn, _⟩ := herror hret
        exact step_harmless hgoing hret hn hstep

theorem delivers_two : Delivers 3 [⟨2, 0⟩, ⟨1, 0⟩] := by
  have hans : Along (step 3) Answers [⟨2, 0⟩, ⟨1, 0⟩] (init 3) := by
    refine ⟨fun _ => Or.inl (by decide), fun s hs => ?_⟩
    obtain rfl := Option.some.inj hs
    exact ⟨fun _ => Or.inl (by decide), fun _ _ => trivial⟩
  refine (delivers_iff hans).mpr fun past w rest heq _ _ hret => ?_
  have hmem : w ∈ [(⟨2, 0⟩ : SockWrite), ⟨1, 0⟩] := heq ▸ List.mem_append_right _ List.mem_cons_self
  rcases List.mem_cons.mp hmem with rfl | hmem
  · cases hret
  · obtain rfl := List.mem_singleton.mp hmem
    cases hret

/-- A connection that is broken: the failure is not reported, and after the next call `Writen`
answers that its byte was delivered, with two bytes taken from somewhere else. -/
theorem error_not_reported :
    Along (step 1) Answers [⟨-1, 32⟩, ⟨2, 0⟩] (init 1) ∧ ¬ Delivers 1 [⟨-1, 32⟩, ⟨2, 0⟩] := by
  constructor
  · refine ⟨fun _ => Or.inr (Or.inr rfl), fun s hs => ?_⟩
    obtain rfl := Option.some.inj hs
    exact ⟨fun _ => Or.inl (by decide), fun _ _ => trivial⟩
  · rintro ⟨hall, -⟩
    have hrun : run (step 1) [⟨-1, 32⟩, ⟨2, 0⟩] (init 1) =
        some ⟨0, 4294967297, [4294967295, 4294967296], some 1⟩ := by decide
    have htaken := hall _ 1 hrun rfl rfl
    cases htaken

end LibC.Writen
