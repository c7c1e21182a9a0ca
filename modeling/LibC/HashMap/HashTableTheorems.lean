/-
LibC.HashMap.HashTableTheorems — the hash table as a map, until it grows.

A key belongs in the bucket that the low bits of its hash name. `MapRepr` is the
invariant: every key is in one node of that bucket, with the value last set for
it, so `hget` finds it (`MapRepr.isMap`), and `hset` keeps it so
(`MapRepr.put`).

A call of `hset` that finds the table too full calls `Resize`, and does not come
back from it (`step_fails`). `run_isMap_iff` puts the two sides together.

No `sorry`, no `axiom`, no `native_decide`.
-/
import LibC.HashMap.HashTable
import LibC.Lib.Run

namespace LibC

open LibC.Lib

/-! ## Hashes -/

/-- The mask of `2 ^ m` buckets takes the low `m` bits. -/
theorem toNat_and_mask {b : UInt32} {m : ℕ} (hb : b.toNat = 2 ^ m) (h : UInt32) :
    (h &&& (b - 1)).toNat = h.toNat % 2 ^ m := by
  have hle : (1 : UInt32) ≤ b := by
    rw [UInt32.le_iff_toNat_le, hb]
    exact Nat.one_le_two_pow
  rw [UInt32.toNat_and, UInt32.toNat_sub_of_le _ _ hle, hb]
  exact Nat.and_two_pow_sub_one_eq_mod _ _

/-! ## The buckets -/

namespace HTable

/-- A table of `2 ^ m` buckets. -/
structure Shape (m : ℕ) (t : HTable) : Prop where
  lt : m < 32
  size : t.bucketSize.toNat = 2 ^ m
  mask : t.sizemask = t.bucketSize - 1
  length : t.htable.length = 2 ^ m

theorem shape_new {m : ℕ} (hm : m < 32) : Shape m (HTable.new (UInt32.ofNat (2 ^ m))) := by
  have hsize : (UInt32.ofNat (2 ^ m)).toNat = 2 ^ m := by
    rw [UInt32.toNat_ofNat', Nat.mod_eq_of_lt (Nat.pow_lt_pow_right (by decide) hm)]
  exact ⟨hm, hsize, rfl, by rw [HTable.new, List.length_replicate, hsize]⟩

/-- `Resize` does not come back. -/
theorem resize_eq_none (size : UInt32) (t : HTable) : t.resize size = none := by
  unfold HTable.resize
  exact Option.bind_fun_none _

end HTable

namespace HashTable

variable {κ ν : Type} {hash : κ → UInt32} {t t' : HashTable κ ν} {m : ℕ}

/-! ## What a table stores -/

/-- The node `p` is on the chain of bucket `i`. -/
def Stores (t : HashTable κ ν) (i : ℕ) (p : Ptr) (n : HTNode κ ν) : Prop :=
  ∃ o ps, t.table.htable[i]? = some o ∧ Chain HTNode.next t.heap o ps ∧ p ∈ ps ∧
    t.heap.get p = some n

/-- Every bucket is the beginning of a chain. -/
def Chained (t : HashTable κ ν) : Prop :=
  ∀ (i : ℕ) o, t.table.htable[i]? = some o → ∃ ps, Chain HTNode.next t.heap o ps

/-- The index of a key. -/
theorem genHashKey_eq (h : HTable.Shape m t.table) (key : κ) :
    t.genHashKey hash key = (hash key).toNat % 2 ^ m := by
  rw [genHashKey, h.mask, toNat_and_mask h.size]

/-- A node that is stored is live. -/
theorem Stores.get {i : ℕ} {p : Ptr} {n : HTNode κ ν} (h : t.Stores i p n) :
    t.heap.get p = some n := by
  obtain ⟨_, _, _, _, _, hn⟩ := h
  exact hn

/-- A node is stored with what it holds. -/
theorem Stores.node_eq {i j : ℕ} {p : Ptr} {n n' : HTNode κ ν} (h : t.Stores i p n)
    (h' : t.Stores j p n') : n = n' :=
  Option.some.inj (h.get.symm.trans h'.get)

/-! ## Writes and new nodes -/

/-- A write to a value keeps the chains. -/
theorem Chained.set (h : t.Chained) {q : Ptr} {c : HTNode κ ν} (hq : t.heap.get q = some c)
    (val : ν) (used : UInt32) :
    Chained ⟨t.heap.set q { c with val }, { t.table with sizeUsed := used }⟩ := by
  intro i o ho
  obtain ⟨ps, hps⟩ := h i o ho
  exact ⟨ps, hps.set hq rfl⟩

/-- A new node in front of a chain makes a chain. -/
theorem Chained.push (h : t.Chained) {idx : ℕ} {itr : Option Ptr}
    (hitr : t.table.htable[idx]? = some itr) {c : HTNode κ ν} (hc : c.next = itr) (used : UInt32) :
    Chained ⟨(t.heap.alloc c).2, { t.table with
      sizeUsed := used
      htable := t.table.htable.set idx (some t.heap.size) }⟩ := by
  intro i o ho
  by_cases hi : i = idx
  · subst hi
    obtain ⟨ps, hps⟩ := h i itr hitr
    rw [List.getElem?_set_self (List.getElem?_eq_some_iff.mp hitr).1] at ho
    obtain rfl := Option.some.inj ho
    rw [← hc] at hps
    exact ⟨_, hps.push⟩
  · rw [List.getElem?_set_ne (Ne.symm hi)] at ho
    obtain ⟨ps, hps⟩ := h i o ho
    exact ⟨ps, hps.alloc c⟩

/-- After a write to a node. -/
theorem stores_set {q : Ptr} {c : HTNode κ ν} (hq : t.heap.get q = some c) (val : ν)
    (used : UInt32) (i : ℕ) (p : Ptr) (n : HTNode κ ν) :
    (⟨t.heap.set q { c with val }, { t.table with sizeUsed := used }⟩ :
      HashTable κ ν).Stores i p n ↔
      ∃ n0, t.Stores i p n0 ∧ n = if p = q then { n0 with val } else n0 := by
  have hget := fun p => Heap.get_set (Heap.lt_size hq) { c with val } p
  constructor
  · rintro ⟨o, ps, ho, hc, hp, hn⟩
    -- the chain was there before
    have hc0 : Chain HTNode.next t.heap o ps := by
      refine hc.frame fun p' _ d hd => ?_
      rw [hget] at hd
      split at hd
      · next heq =>
          cases hd
          exact ⟨c, heq ▸ hq, rfl⟩
      · exact ⟨d, hd, rfl⟩
    obtain ⟨n0, hn0⟩ := hc0.live p hp
    refine ⟨n0, ⟨o, ps, ho, hc0, hp, hn0⟩, ?_⟩
    simp only [hget] at hn
    split at hn
    · next heq =>
        subst heq
        obtain rfl : c = n0 := Option.some.inj (hq.symm.trans hn0)
        rw [if_pos rfl]
        exact (Option.some.inj hn).symm
    · next hne =>
        rw [if_neg hne]
        exact Option.some.inj (hn.symm.trans hn0)
  · rintro ⟨n0, ⟨o, ps, ho, hc, hp, hn0⟩, rfl⟩
    refine ⟨o, ps, ho, hc.set hq rfl, hp, ?_⟩
    simp only [hget]
    split
    · next heq =>
        subst heq
        obtain rfl : c = n0 := Option.some.inj (hq.symm.trans hn0)
        rfl
    · exact hn0

/-- After a new node was put in front of a chain, what was stored is stored. -/
theorem stores_push {idx : ℕ} {itr : Option Ptr} (hitr : t.table.htable[idx]? = some itr)
    {c : HTNode κ ν} (hc : c.next = itr) (used : UInt32) {i : ℕ} {p : Ptr} {n : HTNode κ ν}
    (h : t.Stores i p n) :
    (⟨(t.heap.alloc c).2, { t.table with
      sizeUsed := used
      htable := t.table.htable.set idx (some t.heap.size) }⟩ : HashTable κ ν).Stores i p n := by
  obtain ⟨o, ps, ho, hchain, hp, hn⟩ := h
  have hn' : (t.heap.alloc c).2.get p = some n := by
    rw [Heap.get_alloc, if_neg (Nat.ne_of_lt (Heap.lt_size hn)), hn]
  by_cases hi : i = idx
  · subst hi
    obtain rfl : o = itr := Option.some.inj (ho.symm.trans hitr)
    have hlt := (List.getElem?_eq_some_iff.mp ho).1
    have hchain' : Chain HTNode.next t.heap c.next ps := by rwa [hc]
    exact ⟨_, _, List.getElem?_set_self hlt, hchain'.push, List.mem_cons_of_mem _ hp, hn'⟩
  · refine ⟨o, ps, ?_, hchain.alloc c, hp, hn'⟩
    rw [List.getElem?_set_ne (Ne.symm hi), ho]

/-- What is stored then was stored before, or is the new node. -/
theorem stores_push_iff (hchained : t.Chained) {idx : ℕ} {itr : Option Ptr}
    (hitr : t.table.htable[idx]? = some itr) {c : HTNode κ ν} (hc : c.next = itr) (used : UInt32)
    (i : ℕ) (p : Ptr) (n : HTNode κ ν) :
    (⟨(t.heap.alloc c).2, { t.table with
      sizeUsed := used
      htable := t.table.htable.set idx (some t.heap.size) }⟩ : HashTable κ ν).Stores i p n ↔
      t.Stores i p n ∨ (i = idx ∧ p = t.heap.size ∧ n = c) := by
  have hlt := (List.getElem?_eq_some_iff.mp hitr).1
  have hnew : (t.heap.alloc c).2.get t.heap.size = some c := by rw [Heap.get_alloc, if_pos rfl]
  have hold : ∀ {o ps}, t.table.htable[i]? = some o →
      Chain HTNode.next (t.heap.alloc c).2 o ps → p ∈ ps →
        (t.heap.alloc c).2.get p = some n → t.Stores i p n := by
    intro o ps ho hchain hp hn
    obtain ⟨qs, hq⟩ := hchained i o ho
    obtain rfl := hchain.unique (hq.alloc c)
    obtain ⟨n', hn'⟩ := hq.live p hp
    rw [Heap.get_alloc, if_neg (Nat.ne_of_lt (Heap.lt_size hn'))] at hn
    exact ⟨o, ps, ho, hq, hp, hn⟩
  constructor
  · rintro ⟨o, ps, ho, hchain, hp, hn⟩
    by_cases hi : i = idx
    · subst hi
      rw [List.getElem?_set_self hlt] at ho
      obtain rfl := Option.some.inj ho
      cases ps with
      | nil => cases hp
      | cons q qs =>
          obtain ⟨hq, c', hc', hqs⟩ := hchain
          obtain rfl := Option.some.inj hq
          obtain rfl := Option.some.inj (hnew.symm.trans hc')
          rcases List.mem_cons.mp hp with rfl | hp
          · exact Or.inr ⟨rfl, rfl, Option.some.inj (hn.symm.trans hnew)⟩
          · rw [hc] at hqs
            exact Or.inl (hold hitr hqs hp hn)
    · rw [List.getElem?_set_ne (Ne.symm hi)] at ho
      exact Or.inl (hold ho hchain hp hn)
  · rintro (h | ⟨rfl, rfl, rfl⟩)
    · exact stores_push hitr hc used h
    · obtain ⟨ps, hps⟩ := hchained _ _ hitr
      rw [← hc] at hps
      exact ⟨_, _, List.getElem?_set_self hlt, hps.push, List.mem_cons_self, hnew⟩

variable [DecidableEq κ]

/-! ## The map -/

/-- The value last set for a key. -/
def lastSet (key : κ) (ops : List (κ × ν)) : Option ν :=
  (ops.reverse.find? fun e => e.1 = key).map Prod.snd

/-- The table is the map that the calls have made: `hget` finds the value last set for a
key, and nothing for another key; and each key that was set is in exactly one node of
exactly one chain. -/
structure IsMap (hash : κ → UInt32) (ops : List (κ × ν)) (t : HashTable κ ν) : Prop where
  hget : ∀ key, t.hget hash key = some (lastSet key ops)
  single : ∀ key ∈ ops.map Prod.fst, ∃! x : ℕ × Ptr, ∃ n, t.Stores x.1 x.2 n ∧ n.key = key

/-- `hset`, as a step. -/
def step (hash : κ → UInt32) (op : κ × ν) (t : HashTable κ ν) : Option (HashTable κ ν) :=
  t.hset hash op.1 op.2

theorem lastSet_append (key : κ) (ops : List (κ × ν)) (op : κ × ν) :
    lastSet key (ops ++ [op]) = if op.1 = key then some op.2 else lastSet key ops := by
  rw [lastSet, List.reverse_append, List.reverse_singleton, List.singleton_append, List.find?_cons]
  by_cases h : op.1 = key
  · simp [h]
  · simp [h, lastSet]

theorem exists_lastSet {key : κ} {ops : List (κ × ν)} (h : key ∈ ops.map Prod.fst) :
    ∃ v, lastSet key ops = some v := by
  obtain ⟨e, he, hkey⟩ := List.mem_map.mp h
  cases hfind : ops.reverse.find? fun e => e.1 = key with
  | none =>
      have hno := List.find?_eq_none.mp hfind e (List.mem_reverse.mpr he)
      exact absurd (by simpa using hkey) hno
  | some e' => exact ⟨e'.2, by rw [lastSet, hfind]; rfl⟩

/-! ## The invariant -/

/-- The invariant: every bucket is a chain, every key is in the bucket it belongs in, in one
node, and the nodes hold what was last set. -/
structure MapRepr (hash : κ → UInt32) (past : List (κ × ν)) (m : ℕ) (t : HashTable κ ν) : Prop where
  shape : t.table.Shape m
  chained : t.Chained
  placed : ∀ i p n, t.Stores i p n → (hash n.key).toNat % 2 ^ m = i
  single : ∀ i p n j q n', t.Stores i p n → t.Stores j q n' → n.key = n'.key → p = q
  content : ∀ key val, lastSet key past = some val ↔
    ∃ i p n, t.Stores i p n ∧ n.key = key ∧ n.val = val

theorem mapRepr_new (hm : m < 32) :
    MapRepr hash [] m (new (UInt32.ofNat (2 ^ m)) : HashTable κ ν) := by
  have hnone : ∀ i p n, ¬ (new (UInt32.ofNat (2 ^ m)) : HashTable κ ν).Stores i p n := by
    intro i p n h
    cases h.get
  refine ⟨HTable.shape_new hm, ?_, fun i p n h => absurd h (hnone i p n),
    fun i p n _ _ _ h => absurd h (hnone i p n), ?_⟩
  · intro i o ho
    obtain ⟨-, rfl⟩ := List.mem_replicate.mp (List.mem_of_getElem? ho)
    exact ⟨[], rfl⟩
  · intro key val
    constructor
    · intro h
      cases h
    · rintro ⟨i, p, n, h, _⟩
      exact absurd h (hnone i p n)

variable {past : List (κ × ν)}

/-- Looking for a key in the bucket it belongs in. -/
theorem MapRepr.findNode (r : MapRepr hash past m t) (key : κ) :
    ∃ itr found, t.table.htable[t.genHashKey hash key]? = some itr ∧
      findNode key itr t = some found ∧
      ((∃ p n, found = some p ∧ t.Stores (t.genHashKey hash key) p n ∧ n.key = key) ∨
        (found = none ∧ ∀ i p n, t.Stores i p n → n.key ≠ key)) := by
  have hlt : t.genHashKey hash key < t.table.htable.length := by
    rw [genHashKey_eq r.shape, r.shape.length]
    exact Nat.mod_lt _ (Nat.two_pow_pos m)
  obtain ⟨ps, hps⟩ := r.chained _ _ (List.getElem?_eq_getElem hlt)
  refine ⟨_, _, List.getElem?_eq_getElem hlt, Chain.follow_eq _ hps hps.length_le, ?_⟩
  cases hfind : ps.find? fun p => (t.heap.get p).any fun n => decide (n.key = key) with
  | some p =>
      left
      have htest := List.find?_some hfind
      obtain ⟨n, hn⟩ := hps.live p (List.mem_of_find?_eq_some hfind)
      refine ⟨p, n, rfl, ⟨_, ps, List.getElem?_eq_getElem hlt, hps,
        List.mem_of_find?_eq_some hfind, hn⟩, ?_⟩
      simpa [hn] using htest
  | none =>
      right
      refine ⟨rfl, fun i p n hst hkey => ?_⟩
      have hi := r.placed i p n hst
      obtain ⟨o, qs, ho, hqs, hp, hn⟩ := hst
      rw [hkey, ← genHashKey_eq r.shape] at hi
      subst hi
      rw [List.getElem?_eq_getElem hlt] at ho
      obtain rfl := Option.some.inj ho
      obtain rfl := hps.unique hqs
      have htest := List.find?_eq_none.mp hfind p hp
      rw [hn] at htest
      exact htest (by simpa using hkey)

/-- The table is a map. -/
theorem MapRepr.isMap (r : MapRepr hash past m t) : IsMap hash past t := by
  constructor
  · intro key
    obtain ⟨itr, found, hitr, hfound, hcases⟩ := r.findNode key
    rw [HashTable.hget, hitr]
    rcases hcases with ⟨p, n, rfl, hst, hkey⟩ | ⟨rfl, hno⟩
    · have hlast := (r.content key n.val).mpr ⟨_, p, n, hst, hkey, rfl⟩
      simp [hfound, hst.get, hlast]
    · have hlast : lastSet key past = none := by
        rw [Option.eq_none_iff_forall_ne_some]
        intro v hv
        obtain ⟨i, p, n, hst, hkey, _⟩ := (r.content key v).mp hv
        exact hno i p n hst hkey
      simp [hfound, hlast]
  · intro key hkey
    obtain ⟨v, hv⟩ := exists_lastSet hkey
    obtain ⟨i, p, n, hst, hn, _⟩ := (r.content key v).mp hv
    refine ⟨(i, p), ⟨n, hst, hn⟩, ?_⟩
    rintro ⟨j, q⟩ ⟨n', hst', hn'⟩
    have hj := r.placed j q n' hst'
    rw [hn', ← hn, r.placed i p n hst] at hj
    rw [hj, r.single i p n j q n' hst hst' (hn.trans hn'.symm)]

/-- The node of a key gets another value. -/
theorem MapRepr.overwrite (r : MapRepr hash past m t) {i : ℕ} {p : Ptr} {c : HTNode κ ν}
    (hst : t.Stores i p c) (val : ν) (used : UInt32) :
    MapRepr hash (past ++ [(c.key, val)]) m
      ⟨t.heap.set p { c with val }, { t.table with sizeUsed := used }⟩ := by
  have hc := hst.get
  have hstores := stores_set hc val used
  refine ⟨⟨r.shape.lt, r.shape.size, r.shape.mask, r.shape.length⟩, r.chained.set hc val used,
    ?_, ?_, ?_⟩
  · intro i q n h
    obtain ⟨n0, h0, rfl⟩ := (hstores i q n).mp h
    have hplaced := r.placed i q n0 h0
    split <;> exact hplaced
  · intro i q n j q' n' h h' heq
    obtain ⟨n0, h0, rfl⟩ := (hstores i q n).mp h
    obtain ⟨n1, h1, rfl⟩ := (hstores j q' n').mp h'
    refine r.single i q n0 j q' n1 h0 h1 ?_
    split at heq <;> split at heq <;> exact heq
  · intro k v
    rw [lastSet_append]
    simp only [hstores]
    constructor
    · intro h
      split at h
      · next heq =>
          cases h
          exact ⟨_, p, _, ⟨c, hst, rfl⟩, by simp [heq], by simp⟩
      · next hne =>
          obtain ⟨i, q, n, h0, hn, hv⟩ := (r.content k v).mp h
          have hqp : q ≠ p := by
            rintro rfl
            exact hne ((congrArg HTNode.key (hst.node_eq h0)).trans hn)
          exact ⟨i, q, n, ⟨n, h0, (if_neg hqp).symm⟩, hn, hv⟩
    · rintro ⟨i, q, n, ⟨n0, h0, rfl⟩, hn, hv⟩
      by_cases hqp : q = p
      · subst hqp
        obtain rfl := h0.node_eq hst
        rw [if_pos rfl] at hn hv
        rw [if_pos hn, ← hv]
      · rw [if_neg hqp] at hn hv
        have hne : c.key ≠ k := fun hk => hqp (r.single i q n0 _ p c h0 hst (hn.trans hk.symm))
        rw [if_neg hne]
        exact (r.content k v).mpr ⟨i, q, n0, h0, hn, hv⟩

/-- A new node goes in front of the chain of its key. -/
theorem MapRepr.push (r : MapRepr hash past m t) {key : κ} {itr : Option Ptr}
    (hitr : t.table.htable[t.genHashKey hash key]? = some itr)
    (hno : ∀ i p n, t.Stores i p n → n.key ≠ key) (val : ν) (used : UInt32) :
    MapRepr hash (past ++ [(key, val)]) m
      ⟨(t.heap.alloc ⟨key, val, itr⟩).2, { t.table with
        sizeUsed := used
        htable := t.table.htable.set (t.genHashKey hash key) (some t.heap.size) }⟩ := by
  have hstores := stores_push_iff r.chained hitr (c := ⟨key, val, itr⟩) rfl used
  refine ⟨⟨r.shape.lt, r.shape.size, r.shape.mask, ?_⟩, r.chained.push hitr rfl used, ?_, ?_, ?_⟩
  · rw [List.length_set]
    exact r.shape.length
  · intro i q n h
    rcases (hstores i q n).mp h with h | ⟨rfl, rfl, rfl⟩
    · exact r.placed i q n h
    · exact (genHashKey_eq r.shape key).symm
  · intro i q n j q' n' h h' heq
    rcases (hstores i q n).mp h with h | ⟨rfl, rfl, rfl⟩
    · rcases (hstores j q' n').mp h' with h' | ⟨rfl, rfl, rfl⟩
      · exact r.single i q n j q' n' h h' heq
      · exact absurd heq (hno i q n h)
    · rcases (hstores j q' n').mp h' with h' | ⟨rfl, rfl, rfl⟩
      · exact absurd heq.symm (hno j q' n' h')
      · rfl
  · intro k v
    rw [lastSet_append]
    simp only [hstores]
    constructor
    · intro h
      split at h
      · next heq =>
          cases h
          exact ⟨t.genHashKey hash key, t.heap.size, ⟨key, val, itr⟩, Or.inr ⟨rfl, rfl, rfl⟩, heq,
            rfl⟩
      · obtain ⟨i, q, n, h0, hn⟩ := (r.content k v).mp h
        exact ⟨i, q, n, Or.inl h0, hn⟩
    · rintro ⟨i, q, n, h | ⟨rfl, rfl, rfl⟩, hn, hv⟩
      · have hne : key ≠ k := by
          rintro rfl
          exact hno i q n h hn
        rw [if_neg hne]
        exact (r.content k v).mpr ⟨i, q, n, h, hn, hv⟩
      · rw [if_pos hn, ← hv]

/-- `put` sets the value of its key. -/
theorem MapRepr.put (r : MapRepr hash past m t) (key : κ) (val : ν) :
    ∃ t', put hash key val t = some t' ∧ MapRepr hash (past ++ [(key, val)]) m t' := by
  obtain ⟨itr, found, hitr, hfound, hcases⟩ := r.findNode key
  rcases hcases with ⟨p, c, rfl, hst, rfl⟩ | ⟨rfl, hno⟩
  · obtain ⟨used, hrun⟩ : ∃ used, HashTable.put hash c.key val t =
        some ⟨t.heap.set p { c with val }, { t.table with sizeUsed := used }⟩ :=
      ⟨_, by simp [HashTable.put, hitr, hfound, Heap.modify?_eq hst.get]; rfl⟩
    exact ⟨_, hrun, r.overwrite hst val used⟩
  · obtain ⟨used, hrun⟩ : ∃ used, HashTable.put hash key val t =
        some ⟨(t.heap.alloc ⟨key, val, itr⟩).2, { t.table with
          sizeUsed := used
          htable := t.table.htable.set (t.genHashKey hash key) (some t.heap.size) }⟩ :=
      ⟨_, by simp [HashTable.put, hitr, hfound]; rfl⟩
    exact ⟨_, hrun, r.push hitr hno val used⟩

/-- A call of `hset` on a table that is not too full. -/
theorem MapRepr.step (r : MapRepr hash past m t) {op : κ × ν} (hneed : t.isNeedToExpand = false) :
    ∃ t', step hash op t = some t' ∧ MapRepr hash (past ++ [op]) m t' := by
  obtain ⟨t', hput, h⟩ := r.put op.1 op.2
  refine ⟨t', ?_, h⟩
  rw [HashTable.step, hset, HashTable.expand, if_neg (by simp [hneed])]
  exact hput

/-- A call of `hset` on one that is. -/
theorem step_fails {op : κ × ν} (hneed : t.isNeedToExpand = true) : step hash op t = none := by
  rw [HashTable.step, hset, HashTable.expand, if_pos hneed, HTable.resize_eq_none]
  simp

/-! ## Runs -/

/-- **The hash table.** From an empty table of `2 ^ m` buckets, any calls of `hset` end
without a fault in a table that is the map they have made exactly when none of them finds that
the table needs to grow. -/
theorem run_isMap_iff (hash : κ → UInt32) (m : ℕ) (hm : m < 32) (ops : List (κ × ν)) :
    (∃ t, run (step hash) ops (new (UInt32.ofNat (2 ^ m))) = some t ∧ IsMap hash ops t) ↔
      Along (step hash) (fun _ t => t.isNeedToExpand = false) ops (new (UInt32.ofNat (2 ^ m))) := by
  obtain ⟨hends, hmeets⟩ := run_ends_iff_along (step hash) (new (UInt32.ofNat (2 ^ m)))
    (fun _ t => t.isNeedToExpand = false) (fun past t => MapRepr hash past m t)
    (mapRepr_new hm) (fun past op t r hneed => r.step hneed)
    (fun past op t r hneed => step_fails (by simpa using hneed)) ops
  constructor
  · rintro ⟨t, hrun, _⟩
    exact hends t hrun
  · intro h
    obtain ⟨t, hrun, r⟩ := hmeets h
    exact ⟨t, hrun, r.isMap⟩

/-- The hash of an `int`. -/
def intHash (key : Int32) : UInt32 := HashFunc.hash (HashFunc.intBytes key)

/-- Five calls on a table of four buckets; `1` and `2` share one, and two keys are set twice. -/
theorem run_isMap_iff_five :
    2 < 32 ∧ ((∃ t, run (step intHash) [(1, 10), (0, 20), (1, 30), (2, 40), (0, 50)]
          (new (UInt32.ofNat (2 ^ 2))) = some t ∧
        IsMap intHash [(1, (10 : ℕ)), (0, 20), (1, 30), (2, 40), (0, 50)] t) ↔
      Along (step intHash) (fun _ t => t.isNeedToExpand = false)
        [(1, 10), (0, 20), (1, 30), (2, 40), (0, 50)] (new (UInt32.ofNat (2 ^ 2)))) :=
  ⟨by decide, run_isMap_iff intHash 2 (by decide) [(1, 10), (0, 20), (1, 30), (2, 40), (0, 50)]⟩

/-- The second call finds the only bucket in use, and `Resize` does not come back. -/
theorem resize_runs_off :
    lastSet 1 [(1, (10 : ℕ)), ((2 : Int32), 20)] = some 10 ∧
      (new 1 : HashTable Int32 ℕ).isNeedToExpand = false ∧
      ((step intHash (1, (10 : ℕ)) (new 1)).map fun t => t.isNeedToExpand) = some true ∧
      run (step intHash) [(1, (10 : ℕ)), (2, 20)] (new 1) = none := by
  refine ⟨rfl, ?_, ?_, ?_⟩ <;> decide +kernel

end HashTable

end LibC
