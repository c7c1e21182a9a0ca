/-
LibC.SkipList.SortSetTheorems — when the dictionary and the skip list agree.

`Delete` looks for a score and a value by walking over every node that is
smaller or has the same score and another value. Among tied nodes it does not
know on which side of the wanted one it is, so a tied node further on that is
taller lures the search past it (`Descent.final_ne_of_taller`), and the node
stays in the list while its dictionary entry goes.

`Exact` counts: no member has more nodes than dictionary entries. A call either
keeps the counts in step or leaves one node too many, and a surplus never goes
away again, so the halves agree at the end of a run exactly when every call of
the run was safe (`run_agrees_iff`).

No `sorry`, no `axiom`, no `native_decide`.
-/
import LibC.SkipList.SortSet

namespace LibC

open LibC.Lib LibC.Lib.Tower

variable {α β : Type} [LinearOrder α] [DecidableEq β] [Neg α] [One α] [Inhabited β]
variable {sl : SkipList α β} {ps : List Ptr} {ts : List (Tower α β)}

/-! ## When `Delete` finds the node -/

omit [DecidableEq β] in
/-- The search for a pair that occurs once ends right before it exactly when no taller
tied node comes after it. -/
theorem stop_eq_iff (r : Repr sl ps ts) {score : α} {val : β} {stops : ℕ → ℕ}
    (d : Descent (heights ts) (BeforeAt ts score val) sl.level stops) {K : ℕ} {t : Tower α β}
    (hK : ts[K]? = some t) (hs : t.score = score) (hv : t.val = val)
    (huniq : ∀ (j : ℕ) (t' : Tower α β), ts[j]? = some t' → t'.score = score → t'.val = val →
      j = K) :
    stops 0 = K ↔ NoTallerTie score val ts := by
  have hle : ∀ (i j : ℕ) (a b : Tower α β), i ≤ j → ts[i]? = some a → ts[j]? = some b →
      a.score ≤ b.score := by
    intro i j a b hij ha hb
    obtain ⟨h1, rfl⟩ := List.getElem?_eq_some_iff.mp ha
    obtain ⟨h2, rfl⟩ := List.getElem?_eq_some_iff.mp hb
    rcases Nat.eq_or_lt_of_le hij with h | h
    · subst h; exact le_refl _
    · exact List.pairwise_iff_getElem.mp r.sorted i j h1 h2 h
  have hKl : K < ts.length := (List.getElem?_eq_some_iff.mp hK).1
  have hno : ¬ BeforeAt ts score val (K + 1) := by
    rintro ⟨t', ht', hb⟩
    rw [Nat.add_sub_cancel, hK] at ht'
    cases ht'
    rcases hb with hb | ⟨_, hb⟩
    · exact absurd hs (ne_of_lt hb)
    · exact hb hv
  have hheight : heights ts (K + 1) = t.height := heights_succ hK
  constructor
  · -- a taller tied node further on would have drawn the search past the pair
    intro hstop i j a b hij ha hb has hav hbs
    obtain rfl : i = K := huniq i a ha has hav
    rw [hK] at ha
    cases ha
    by_contra htall
    have hbl : j < ts.length := (List.getElem?_eq_some_iff.mp hb).1
    refine d.final_ne_of_taller (t := i + 1) (m := j + 1) (by omega)
      (by rw [hheight, heights_succ hb]; omega)
      (by rw [heights_succ hb]; exact (r.tall b (List.mem_of_getElem? hb)).2)
      (fun p h1 h2 h3 => ?_) (by rw [hstop])
    obtain ⟨p, rfl⟩ : ∃ q, p = q + 1 := ⟨p - 1, by omega⟩
    have hpl : p < ts.length := by omega
    refine ⟨ts[p], List.getElem?_eq_getElem hpl, ?_⟩
    rcases lt_or_eq_of_le (hle p j _ _ (by omega) (List.getElem?_eq_getElem hpl) hb) with h | h
    · exact Or.inl (hbs ▸ h)
    · refine Or.inr ⟨h.trans hbs, fun hv' => h3 ?_⟩
      rw [huniq p _ (List.getElem?_eq_getElem hpl) (h.trans hbs) hv']
  · intro htie
    have hfin := d.final_of_tied (t := K + 1) (by have := r.level.1; omega) (by omega) hno
      (fun m h1 h2 => ?_) (fun m h1 h2 => r.height_pos_of_le (by omega)) (fun m h1 hb => ?_)
    · omega
    · obtain ⟨m, rfl⟩ : ∃ q, m = q + 1 := ⟨m - 1, by omega⟩
      have hml : m < ts.length := by omega
      refine ⟨ts[m], List.getElem?_eq_getElem hml, ?_⟩
      rcases lt_or_eq_of_le (hle m K _ _ (by omega) (List.getElem?_eq_getElem hml) hK) with h | h
      · exact Or.inl (hs ▸ h)
      · refine Or.inr ⟨h.trans hs, fun hv' => ?_⟩
        have := huniq m _ (List.getElem?_eq_getElem hml) (h.trans hs) hv'
        omega
    · obtain ⟨b, hb, hbef⟩ := hb
      obtain ⟨m, rfl⟩ : ∃ q, m = q + 1 := ⟨m - 1, by omega⟩
      rw [Nat.add_sub_cancel] at hb
      rw [hheight, heights_succ hb]
      have hge : t.score ≤ b.score := hle K m _ _ (by omega) hK hb
      have hbs : b.score = score := by
        rcases hbef with h | ⟨h, _⟩
        · exact absurd (hs ▸ hge) (not_le.mpr h)
        · exact h
      exact htie K m t b (by omega) hK hb hs hv hbs

/-! ## Counting the nodes of a member -/

/-- The number of nodes that hold a member. -/
def memCount (ts : List (Tower α β)) (data : β) : ℕ := (ts.map Tower.val).count data

/-- No member has more nodes than dictionary entries. -/
def Exact (dict : β → Option α) (ts : List (Tower α β)) : Prop :=
  ∀ data, memCount ts data ≤ if (dict data).isSome then 1 else 0

omit [LinearOrder α] [Neg α] [One α] [Inhabited β] in
theorem memCount_insertIdx {K : ℕ} (hK : K ≤ ts.length) (t : Tower α β) (data : β) :
    memCount (ts.insertIdx K t) data = memCount ts data + if t.val = data then 1 else 0 := by
  have hp : ((ts.insertIdx K t).map Tower.val).Perm (t.val :: ts.map Tower.val) :=
    (List.perm_insertIdx t ts hK).map Tower.val
  rw [memCount, hp.count_eq, List.count_cons]
  simp [memCount]

omit [LinearOrder α] [Neg α] [One α] [Inhabited β] in
theorem memCount_eraseIdx {K : ℕ} {t : Tower α β} (hK : ts[K]? = some t) (data : β) :
    memCount ts data = memCount (ts.eraseIdx K) data + if t.val = data then 1 else 0 := by
  obtain ⟨hlt, rfl⟩ := List.getElem?_eq_some_iff.mp hK
  have hback : (ts.eraseIdx K).insertIdx K ts[K] = ts := List.insertIdx_eraseIdx_getElem hlt
  have h := memCount_insertIdx
    (show K ≤ (ts.eraseIdx K).length by rw [List.length_eraseIdx_of_lt hlt]; omega) ts[K] data
  rwa [hback] at h

omit [LinearOrder α] [Neg α] [One α] [Inhabited β] in
theorem memCount_pos {t : Tower α β} (ht : t ∈ ts) : 0 < memCount ts t.val :=
  List.count_pos_iff.mpr (List.mem_map_of_mem ht)

omit [LinearOrder α] [Neg α] [One α] [Inhabited β] in
/-- A member with one node is at one position. -/
theorem Exact.unique {dict : β → Option α} (he : Exact dict ts) {i j : ℕ} {a b : Tower α β}
    (ha : ts[i]? = some a) (hb : ts[j]? = some b) (hv : a.val = b.val) : i = j := by
  have hnodup : (ts.map Tower.val).Nodup := List.nodup_iff_count_le_one.mpr fun data => by
    have := he data
    rw [memCount] at this
    split at this <;> omega
  have h1 : (ts.map Tower.val)[i]? = some a.val := by rw [List.getElem?_map, ha]; rfl
  have h2 : (ts.map Tower.val)[j]? = some a.val := by rw [List.getElem?_map, hb, hv]; rfl
  obtain ⟨hi, hai⟩ := List.getElem?_eq_some_iff.mp h1
  obtain ⟨hj, haj⟩ := List.getElem?_eq_some_iff.mp h2
  exact (List.Nodup.getElem_inj_iff hnodup).mp (hai.trans haj.symm)

/-! ## One call -/

/-- The skip list holds `ts`, and every dictionary entry has a node in it. -/
structure SetRepr (s : SortSet α β) (ps : List Ptr) (ts : List (Tower α β)) : Prop where
  repr : Repr s.sl ps ts
  covered : ∀ data key, s.dict data = some key → ∃ t ∈ ts, t.val = data ∧ t.score = key

variable {s : SortSet α β}

/-- Inserting a member that is not in the dictionary keeps the counts in step. -/
theorem SetRepr.insert_spec (h : SetRepr s ps ts) (lvl : Lvl) (key : α) {data : β}
    (hd : s.dict data = none) :
    ∃ s' ps' ts', s.insert lvl key data = some (true, s') ∧ SetRepr s' ps' ts' ∧
      (Exact s'.dict ts' ↔ Exact s.dict ts) := by
  obtain ⟨stops, sl', hins, d, _, r'⟩ := LibC.insert_spec h.repr lvl key data
  have hK : stops 0 ≤ ts.length := stop_le_length d 0
  refine ⟨⟨sl', Function.update s.dict data (some key)⟩, _, _, ?_, ⟨r', ?_⟩, ?_⟩
  · simp [SortSet.insert, hd, hins]
  · intro data' key' hk
    by_cases hdd : data' = data
    · subst hdd
      simp only [Function.update_self, Option.some.injEq] at hk
      exact ⟨_, (List.mem_insertIdx hK).mpr (Or.inl rfl), rfl, hk⟩
    · simp only [Function.update_of_ne hdd] at hk
      obtain ⟨t, ht, hv, hs⟩ := h.covered data' key' hk
      exact ⟨t, (List.mem_insertIdx hK).mpr (Or.inr ht), hv, hs⟩
  · have hcount : ∀ data', (memCount (ts.insertIdx (stops 0) ⟨key, data, lvl.val⟩) data' ≤
        if (Function.update s.dict data (some key) data').isSome then 1 else 0) ↔
        memCount ts data' ≤ if (s.dict data').isSome then 1 else 0 := by
      intro data'
      rw [memCount_insertIdx hK]
      by_cases hdd : data' = data
      · subst hdd; simp [hd]
      · simp [Function.update_of_ne hdd, Ne.symm hdd]
    exact forall_congr' hcount

/-- Removing a member keeps the counts in step when no taller tied node comes after it,
and leaves a node too many otherwise. -/
theorem SetRepr.delMem_spec (h : SetRepr s ps ts) {key : α} {data : β}
    (hd : s.dict data = some key) :
    ∃ s' ps' ts', s.delMem data = some (true, s') ∧ SetRepr s' ps' ts' ∧ s'.dict data = none ∧
      (Exact s'.dict ts' ↔ Exact s.dict ts ∧ NoTallerTie key data ts) := by
  obtain ⟨stops, d, hdel⟩ := delete_spec h.repr key data
  obtain ⟨t0, ht0, hv0, hs0⟩ := h.covered data key hd
  obtain ⟨K, hK⟩ := List.mem_iff_getElem?.mp ht0
  have hstop : Exact s.dict ts → (stops 0 = K ↔ NoTallerTie key data ts) := fun he =>
    stop_eq_iff h.repr d hK hs0 hv0 fun j t' ht' _ hv' =>
      he.unique ht' hK (hv'.trans hv0.symm)
  have hother : ∀ {data' : β} {key' : α}, Function.update s.dict data none data' = some key' →
      data' ≠ data ∧ s.dict data' = some key' := fun {data' key'} hk => by
    by_cases hdd : data' = data
    · subst hdd; simp at hk
    · rw [Function.update_of_ne hdd] at hk; exact ⟨hdd, hk⟩
  rcases hdel with ⟨t, sl', ht, hs, hv, hdel, _, r'⟩ | ⟨hmiss, hdel⟩
  · -- the node is found
    refine ⟨⟨sl', Function.update s.dict data none⟩, _, _, ?_, ⟨r', ?_⟩, ?_, ?_⟩
    · simp [SortSet.delMem, hd, hdel]
    · intro data' key' hk
      obtain ⟨hdd, hk⟩ := hother hk
      obtain ⟨t', ht', hv', hs'⟩ := h.covered data' key' hk
      refine ⟨t', ?_, hv', hs'⟩
      obtain ⟨j, hj⟩ := List.mem_iff_getElem?.mp ht'
      refine List.mem_eraseIdx_iff_getElem?.mpr ⟨j, ?_, hj⟩
      rintro rfl
      rw [ht] at hj
      cases hj
      exact hdd (hv'.symm.trans hv)
    · simp
    · have hcount : ∀ data', (memCount (ts.eraseIdx (stops 0)) data' ≤
          if (Function.update s.dict data none data').isSome then 1 else 0) ↔
          memCount ts data' ≤ if (s.dict data').isSome then 1 else 0 := by
        intro data'
        rw [memCount_eraseIdx ht data']
        by_cases hdd : data' = data
        · subst hdd; simp [hd, hv]
        · have hne : t.val ≠ data' := fun heq => hdd (heq.symm.trans hv)
          simp [Function.update_of_ne hdd, hne]
      have hiff : Exact (Function.update s.dict data none) (ts.eraseIdx (stops 0)) ↔
          Exact s.dict ts := forall_congr' hcount
      rw [hiff]
      refine ⟨fun he => ⟨he, (hstop he).mp ?_⟩, And.left⟩
      exact he.unique ht hK (hv.trans hv0.symm)
  · -- the node is missed
    refine ⟨⟨s.sl, Function.update s.dict data none⟩, ps, ts, ?_, ⟨h.repr, ?_⟩, ?_, ?_⟩
    · simp [SortSet.delMem, hd, hdel]
    · intro data' key' hk
      exact h.covered data' key' (hother hk).2
    · simp
    · constructor
      · intro he
        have hle := he data
        have hpos := memCount_pos ht0
        rw [hv0] at hpos
        simp only [Function.update_self, Option.isSome_none, Bool.false_eq_true, if_false] at hle
        omega
      · rintro ⟨he, htie⟩
        rw [← (hstop he).mpr htie] at hK
        exact absurd ⟨hs0, hv0⟩ (hmiss t0 hK)

/-! ## Agreement in terms of counts -/

omit [DecidableEq β] in
/-- The towers of the level-`0` chain. -/
theorem Repr.towers_eq (r : Repr sl ps ts) : towers sl ps = ts := by
  have hmap : ps.map (nodeData sl.heap) = ts.map some := by
    refine List.ext_getElem? fun k => ?_
    rw [List.getElem?_map, List.getElem?_map]
    cases hk : ps[k]? with
    | none =>
        have := List.getElem?_eq_none_iff.mp hk
        rw [List.getElem?_eq_none (by have := r.len; omega)]
        rfl
    | some p =>
        obtain ⟨t, ht, hd⟩ := r.exists_data (k := k + 1) hk
        rw [List.getElem?_cons_succ] at ht
        rw [ht, Option.map_some, Option.map_some, hd]
  calc ps.filterMap (nodeData sl.heap)
      = (ps.map (nodeData sl.heap)).filterMap id := by rw [List.filterMap_map]; rfl
    _ = ts := by rw [hmap, List.filterMap_map]; exact List.filterMap_some

/-- The halves agree when no member has a node too many. -/
theorem SetRepr.agrees_iff (h : SetRepr s ps ts) : Agrees s ↔ Exact s.dict ts := by
  have hpos : ∀ t ∈ ts, 0 < memCount ts t.val := fun t ht => memCount_pos ht
  constructor
  · rintro ⟨qs, hchain, hnodup, hiff⟩
    obtain rfl := hchain.unique h.repr.levelChain_zero
    rw [h.repr.towers_eq] at hnodup hiff
    intro data
    by_cases hmem : data ∈ ts.map Tower.val
    · obtain ⟨t, ht, rfl⟩ := List.mem_map.mp hmem
      rw [(hiff t.val t.score).mpr ⟨t, ht, rfl, rfl⟩]
      exact List.nodup_iff_count_le_one.mp hnodup _
    · rw [memCount, List.count_eq_zero.mpr hmem]
      exact Nat.zero_le _
  · intro he
    refine ⟨ps, h.repr.levelChain_zero, ?_, fun data key => ?_⟩
    · rw [h.repr.towers_eq, List.nodup_iff_count_le_one]
      intro data
      have := he data
      rw [memCount] at this
      split at this <;> omega
    · rw [h.repr.towers_eq]
      refine ⟨h.covered data key, ?_⟩
      rintro ⟨t, ht, rfl, rfl⟩
      have hle := he t.val
      have := hpos t ht
      cases hd : s.dict t.val with
      | none =>
          rw [hd] at hle
          simp only [Option.isSome_none, Bool.false_eq_true, if_false] at hle
          omega
      | some key =>
          obtain ⟨t', ht', hv, hs⟩ := h.covered _ _ hd
          obtain ⟨i, hi⟩ := List.mem_iff_getElem?.mp ht
          obtain ⟨j, hj⟩ := List.mem_iff_getElem?.mp ht'
          obtain rfl := he.unique hi hj hv.symm
          rw [hi] at hj
          cases hj
          rw [hs]

/-- One call: it never faults, and it keeps the halves in agreement exactly when it is
safe. -/
theorem SetOp.step_spec (o : SetOp α β) (h : SetRepr s ps ts) :
    ∃ s' ps' ts', o.step s = some s' ∧ SetRepr s' ps' ts' ∧
      (Agrees s' ↔ Agrees s ∧ o.Safe s) := by
  have hsafe : ∀ P : List (Tower α β) → Prop,
      (∀ qs, LevelChain s.sl 0 qs → P (towers s.sl qs)) ↔ P ts := by
    intro P
    constructor
    · intro hp
      have := hp ps h.repr.levelChain_zero
      rwa [h.repr.towers_eq] at this
    · intro hp qs hq
      rw [hq.unique h.repr.levelChain_zero, h.repr.towers_eq]
      exact hp
  cases o with
  | insert lvl key data =>
      cases hd : s.dict data with
      | none =>
          obtain ⟨s', ps', ts', hins, h', hexact⟩ := h.insert_spec lvl key hd
          refine ⟨s', ps', ts', by simp [SetOp.step, hins], h', ?_⟩
          rw [h'.agrees_iff, h.agrees_iff, hexact]
          simp [SetOp.Safe]
      | some old =>
          exact ⟨s, ps, ts, by simp [SetOp.step, SortSet.insert, hd], h, by simp [SetOp.Safe]⟩
  | delMem data =>
      cases hd : s.dict data with
      | none =>
          exact ⟨s, ps, ts, by simp [SetOp.step, SortSet.delMem, hd], h, by simp [SetOp.Safe, hd]⟩
      | some old =>
          obtain ⟨s', ps', ts', hdel, h', _, hexact⟩ := h.delMem_spec hd
          refine ⟨s', ps', ts', by simp [SetOp.step, hdel], h', ?_⟩
          rw [h'.agrees_iff, h.agrees_iff, hexact]
          simp only [SetOp.Safe, hd, Option.some.injEq, forall_eq']
          rw [hsafe fun ts => NoTallerTie old data ts]
  | update lvl score data =>
      cases hd : s.dict data with
      | none =>
          obtain ⟨s', ps', ts', hins, h', hexact⟩ := h.insert_spec lvl score hd
          refine ⟨s', ps', ts', by simp [SetOp.step, SortSet.update, hd, hins], h', ?_⟩
          rw [h'.agrees_iff, h.agrees_iff, hexact]
          simp [SetOp.Safe, hd]
      | some old =>
          by_cases hold : old = score
          · subst hold
            exact ⟨s, ps, ts, by simp [SetOp.step, SortSet.update, hd], h,
              by simp [SetOp.Safe, hd]⟩
          · obtain ⟨s1, ps1, ts1, hdel, h1, hd1, hexact1⟩ := h.delMem_spec hd
            obtain ⟨s2, ps2, ts2, hins, h2, hexact2⟩ := h1.insert_spec lvl score hd1
            refine ⟨s2, ps2, ts2, by simp [SetOp.step, SortSet.update, hd, hold, hdel, hins], h2,
              ?_⟩
            rw [h2.agrees_iff, h.agrees_iff, hexact2, hexact1]
            simp only [SetOp.Safe, hd, Option.some.injEq, forall_eq', ne_eq, hold,
              not_false_eq_true, true_implies]
            rw [hsafe fun ts => NoTallerTie old data ts]

/-! ## Runs -/

omit [DecidableEq β] in
/-- A set nothing has been inserted in. -/
theorem setRepr_new : SetRepr (SortSet.new : SortSet α β) [] [] :=
  ⟨repr_new, fun _ _ h => by cases h⟩

/-- Every call of a run is safe in the state it is made in. -/
def AllSafe (ops : List (SetOp α β)) : Prop :=
  ∀ past o rest s, ops = past ++ o :: rest → run SetOp.step past SortSet.new = some s → o.Safe s

/-- Every run of `Insert`, `Update` and `DelMem` ends without a fault, in a heap that
holds a list with a node for each dictionary entry. -/
theorem run_setRepr (ops : List (SetOp α β)) :
    ∃ s ps ts, run SetOp.step ops SortSet.new = some s ∧ SetRepr s ps ts ∧
      (Agrees s ↔ AllSafe ops) := by
  induction ops using List.reverseRecOn with
  | nil =>
      refine ⟨SortSet.new, [], [], rfl, setRepr_new, ?_⟩
      rw [setRepr_new.agrees_iff]
      constructor
      · intro _ past o rest s h
        simp at h
      · intro _ data
        simp [memCount]
  | append_singleton ops o ih =>
      obtain ⟨s, ps, ts, hrun, h, hiff⟩ := ih
      obtain ⟨s', ps', ts', hstep, h', hiff'⟩ := o.step_spec h
      refine ⟨s', ps', ts', run_concat.mpr ⟨s, hrun, hstep⟩, h', ?_⟩
      rw [hiff', hiff]
      constructor
      · rintro ⟨hall, hsafe⟩ past o' rest m heq hm
        rcases List.eq_nil_or_concat rest with rfl | ⟨rest, o'', rfl⟩
        · obtain ⟨rfl, h2⟩ := List.append_inj' heq rfl
          cases h2
          rw [hrun] at hm
          cases hm
          exact hsafe
        · rw [List.concat_eq_append, ← List.cons_append, ← List.append_assoc] at heq
          obtain ⟨h1, _⟩ := List.append_inj' heq rfl
          exact hall past o' rest m h1 hm
      · intro hall
        exact ⟨fun past o' rest m heq hm => hall past o' (rest ++ [o]) m
          (by rw [heq, List.append_assoc, List.cons_append]) hm, hall ops o [] s rfl hrun⟩

/-- **Agreement.** Every run of `Insert`, `Update` and `DelMem` ends without a fault, and
dictionary and skip list agree at its end exactly when each call was safe. -/
theorem run_agrees_iff (ops : List (SetOp α β)) :
    ∃ s, run SetOp.step ops SortSet.new = some s ∧ (Agrees s ↔ AllSafe ops) := by
  obtain ⟨s, _, _, hrun, _, hiff⟩ := run_setRepr ops
  exact ⟨s, hrun, hiff⟩

/-- Two members tied at score `1`, the second one taller: removing the first one leaves
its node in the list. -/
theorem delMem_leaves_node :
    ∃ s, run SetOp.step [.insert ⟨1, by decide⟩ 1 [65], .insert ⟨2, by decide⟩ 1 [66],
        .delMem [65]] (SortSet.new : SortSet ℤ (List UInt8)) = some s ∧ ¬ Agrees s := by
  have hrun : ((run SetOp.step [.insert ⟨1, by decide⟩ 1 [65], .insert ⟨2, by decide⟩ 1 [66],
      .delMem [65]] (SortSet.new : SortSet ℤ (List UInt8))).map fun s =>
        (decide (LevelChain s.sl 0 [1, 2]), s.dict [65], towers s.sl [1, 2])) =
      some (true, none, [⟨1, [65], 1⟩, ⟨1, [66], 2⟩]) := by decide +kernel
  obtain ⟨s, hs, hfacts⟩ := Option.map_eq_some_iff.mp hrun
  simp only [Prod.mk.injEq, decide_eq_true_eq] at hfacts
  obtain ⟨hnodes, hgone, htowers⟩ := hfacts
  refine ⟨s, hs, ?_⟩
  rintro ⟨ps, hchain, _, hiff⟩
  obtain rfl := hchain.unique hnodes
  have hstill := (hiff [65] 1).mpr ⟨⟨1, [65], 1⟩, by rw [htowers]; simp, rfl, rfl⟩
  rw [hgone] at hstill
  cases hstill

end LibC
