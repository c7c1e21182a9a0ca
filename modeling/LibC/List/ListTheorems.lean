/-
LibC.List.ListTheorems — a `cz::List` after any calls.

`Holds s cells t` says that the links of `t` make up a circle through the sentinel
`s` and the nodes of `cells`, in both directions, and that each node has the value
that `cells` has there. An assignment changes one field of one node
(`write_spec`), so an operation is known by what the three fields are after it:
`push` puts a node in front (`push_spec`), and `search` ends at the first node with
the key (`search_spec`).

A `del` that finds a node does not come back (`del_present`), so the list is what
the claim of its header says exactly as long as none does: `Misses` says so of the
calls alone, and `run_contents_iff` is the equivalence.

No `sorry`, no `axiom`, no `native_decide`.
-/
import LibC.Lib.Circular
import LibC.Lib.Run
import LibC.List.List
import Mathlib.Logic.Function.Basic

namespace LibC.CzList

open LibC.Lib

variable {α β : Type} {t t' : CzList α} {p q s : Ptr} {cells xs ys : List (Ptr × α)} {v : α}

/-! ## Fields -/

/-- What a field of the nodes holds. -/
def field (f : CzNode α → Option β) (t : CzList α) (q : Ptr) : Option β := (t.heap.get q).bind f

/-- There is a node at `q`. -/
def Live (t : CzList α) (q : Ptr) : Prop := ∃ n, t.heap.get q = some n

theorem live_of_field {f : CzNode α → Option β} {x : β} (h : t.field f q = some x) : Live t q := by
  obtain ⟨n, hn, _⟩ := Option.bind_eq_some_iff.mp h
  exact ⟨n, hn⟩

theorem read_eq (h : Live t q) (f : CzNode α → Option β) :
    t.read (some q) f = some (t.field f q) := by
  obtain ⟨n, hn⟩ := h
  rw [read, field, Option.bind_some, hn]
  rfl

theorem val_eq (q : Ptr) (t : CzList α) : t.val (some q) = t.field CzNode.val q := by
  rw [val, read, field, Option.bind_some]
  cases t.heap.get q <;> rfl

/-- An assignment `g` to the node `q` leaves the others alone. -/
structure Wrote (q : Ptr) (g : CzNode α → CzNode α) (t t' : CzList α) : Prop where
  live : Live t q
  nil : t'.nil = t.nil
  size : t'.heap.size = t.heap.size
  get : ∀ r, t'.heap.get r = if r = q then (t.heap.get q).map g else t.heap.get r

theorem write_spec (h : Live t q) (g : CzNode α → CzNode α) :
    ∃ t', t.write (some q) g = some t' ∧ Wrote q g t t' := by
  have hlive := h
  obtain ⟨n, hn⟩ := h
  refine ⟨{ t with heap := t.heap.set q (g n) }, ?_, hlive, rfl, Heap.size_set .., fun r => ?_⟩
  · rw [write, Option.bind_some, Heap.modify?_eq hn, Option.map_some]
  · rw [hn]
    exact Heap.get_set (Heap.lt_size hn) ..

section Wrote

variable {g : CzNode α → CzNode α} {f : CzNode α → Option β}

theorem Wrote.live_iff (h : Wrote q g t t') (r : Ptr) : Live t' r ↔ Live t r := by
  rw [Live, Live, h.get]
  split
  · next heq =>
      obtain ⟨n, hn⟩ := h.live
      rw [heq, hn]
      simp
  · exact Iff.rfl

/-- Two assignments to one node. -/
theorem Wrote.comp (h : Wrote q g t t') {g' : CzNode α → CzNode α} {t'' : CzList α}
    (h' : Wrote q g' t' t'') : Wrote q (g' ∘ g) t t'' := by
  refine ⟨h.live, h'.nil.trans h.nil, h'.size.trans h.size, fun r => ?_⟩
  rw [h'.get, h.get, h.get, if_pos rfl, Option.map_map]
  split <;> rfl

/-- The field that is assigned. -/
theorem Wrote.field_set (h : Wrote q g t t') {o : Option β} (hf : ∀ n, f (g n) = o) :
    t'.field f = Function.update (t.field f) q o := by
  funext r
  rw [field, h.get, Function.update_apply]
  split
  · obtain ⟨n, hn⟩ := h.live
    rw [hn, Option.map_some, Option.bind_some, hf]
  · rfl

/-- The fields that are not. -/
theorem Wrote.field_keep (h : Wrote q g t t') (hf : ∀ n, f (g n) = f n) :
    t'.field f = t.field f := by
  funext r
  rw [field, field, h.get]
  split
  · next heq =>
      obtain ⟨n, hn⟩ := h.live
      rw [heq, hn, Option.map_some, Option.bind_some, Option.bind_some, hf]
  · rfl

end Wrote

/-- A new node has no fields set. -/
theorem field_create {f : CzNode α → Option β} (hf : f ⟨none, none, none⟩ = none) (t : CzList α) :
    (create t).2.field f = t.field f := by
  funext r
  rw [field, field, create]
  simp only
  rw [Heap.get_alloc]
  split
  · next heq => rw [heq, Heap.get_size, Option.bind_some, hf, Option.bind_none]
  · rfl

theorem live_create (t : CzList α) (r : Ptr) :
    Live (create t).2 r ↔ r = t.heap.size ∨ Live t r := by
  rw [Live, Live, create]
  simp only
  rw [Heap.get_alloc]
  split
  · next heq => simp [heq]
  · next hne => simp [hne]

/-! ## The list in the heap -/

/-- The sentinel `s` and the nodes `cells` are in a circle. -/
structure Holds (s : Ptr) (cells : List (Ptr × α)) (t : CzList α) : Prop where
  nil : t.nil = some s
  circular : Circular (t.field CzNode.next) (t.field CzNode.pre) s (cells.map Prod.fst)
  vals : ∀ c ∈ cells, t.field CzNode.val c.1 = some c.2

theorem Holds.live_sentinel (h : Holds s cells t) : Live t s :=
  live_of_field h.circular.next_sentinel

theorem Holds.live (h : Holds s cells t) {q : Ptr} (hq : q ∈ s :: cells.map Prod.fst) :
    Live t q := by
  rcases List.mem_cons.mp hq with rfl | hq
  · exact h.live_sentinel
  · obtain ⟨c, hc, rfl⟩ := List.mem_map.mp hq
    exact live_of_field (h.vals c hc)

/-- There are fewer nodes in the list than the heap has been asked for. -/
theorem Holds.length_lt (h : Holds s cells t) : cells.length < t.heap.size := by
  have hle := Heap.length_le_size h.circular.nodup fun q hq => h.live hq
  rwa [List.length_cons, List.length_map] at hle

/-- A node of the list: it is not the sentinel, and it has its value and the next node. -/
theorem Holds.at_cell {c : Ptr × α} (h : Holds s cells t) (hcells : cells = xs ++ c :: ys) :
    t.nil ≠ some c.1 ∧ t.val (some c.1) = some c.2 ∧
      t.read (some c.1) CzNode.next = some (some ((ys.map Prod.fst).headD s)) := by
  have hmem : c ∈ cells := hcells ▸ List.mem_append_right _ List.mem_cons_self
  refine ⟨?_, (val_eq c.1 t).trans (h.vals c hmem), ?_⟩
  · rw [h.nil]
    intro heq
    obtain ⟨hs, _⟩ := List.nodup_cons.mp h.circular.nodup
    exact hs (Option.some.inj heq ▸ List.mem_map_of_mem hmem)
  · have hcirc := h.circular
    rw [hcells, List.map_append, List.map_cons] at hcirc
    rw [read_eq (live_of_field (h.vals c hmem)), hcirc.next_cell]

/-! ## Insertion -/

/-- The sentinel is there after the first step of `push`. -/
theorem ensureNil_new : ∃ t, ensureNil (new : CzList α) = some t ∧ Holds 0 [] t := by
  refine ⟨⟨⟨[some ⟨none, some 0, some 0⟩]⟩, some 0⟩, rfl, rfl, ?_, fun c hc => by cases hc⟩
  exact Circular.nil rfl rfl

theorem Holds.ensureNil (h : Holds s cells t) : ensureNil t = some t := by
  rw [CzList.ensureNil, h.nil, if_neg (Option.some_ne_none s)]

/-- A new node in front. -/
theorem push_spec (hnil : ensureNil t = some t') (h : Holds s cells t') (v : α) :
    ∃ t'' p, push v t = some (0, t'') ∧ Holds s ((p, v) :: cells) t'' := by
  obtain ⟨n, hn⟩ : ∃ n, t'.heap.size = n := ⟨_, rfl⟩
  obtain ⟨t0, ht0⟩ : ∃ t0, (create t').2 = t0 := ⟨_, rfl⟩
  have hcreate : create t' = (some n, t0) := by
    rw [← hn, ← ht0]
    rfl
  obtain ⟨f, hf, hmem⟩ : ∃ f, t'.field CzNode.next s = some f ∧ f ∈ s :: cells.map Prod.fst :=
    ⟨_, h.circular.next_sentinel, Circular.headD_mem s _⟩
  have hflive := h.live hmem
  have hlive0 : ∀ r, Live t0 r ↔ r = n ∨ Live t' r := fun r => hn ▸ ht0 ▸ live_create t' r
  have hval0 : t0.field CzNode.val = t'.field CzNode.val := ht0 ▸ field_create rfl t'
  have hnext0 : t0.field CzNode.next = t'.field CzNode.next := ht0 ▸ field_create rfl t'
  have hpre0 : t0.field CzNode.pre = t'.field CzNode.pre := ht0 ▸ field_create rfl t'
  have hns : n ∉ s :: cells.map Prod.fst := by
    intro hm
    obtain ⟨c, hc⟩ := h.live hm
    rw [← hn, Heap.get_size] at hc
    cases hc
  -- the fields of the new node
  obtain ⟨t1, hrun1, h1⟩ :=
    write_spec ((hlive0 n).mpr (Or.inl rfl)) fun m => { m with val := some v }
  obtain ⟨t2, hrun2, h2⟩ :=
    write_spec ((h1.live_iff n).mpr h1.live) fun m => { m with next := some f }
  obtain ⟨t3, hrun3, h3⟩ :=
    write_spec ((h2.live_iff n).mpr h2.live) fun m => { m with pre := some s }
  have h13 := (h1.comp h2).comp h3
  have hlive3 : ∀ r, Live t3 r ↔ r = n ∨ Live t' r := fun r => (h13.live_iff r).trans (hlive0 r)
  have hnil0 : t0.nil = some s := by
    rw [← ht0]
    exact h.nil
  have hnil1 : t1.nil = some s := h1.nil.trans hnil0
  have hnil3 : t3.nil = some s := h13.nil.trans hnil0
  have hnext1 : t1.field CzNode.next = t'.field CzNode.next :=
    (h1.field_keep fun _ => rfl).trans hnext0
  have hnext3 : t3.field CzNode.next = Function.update (t'.field CzNode.next) n (some f) := by
    rw [h13.field_set fun _ => rfl, hnext0]
  have hsn : s ≠ n := fun heq => hns (heq ▸ List.mem_cons_self)
  have hfn : f ≠ n := fun heq => hns (heq ▸ hmem)
  have hread1 : t1.read (some s) CzNode.next = some (some f) := by
    rw [read_eq ((h1.live_iff s).mpr ((hlive0 s).mpr (Or.inr h.live_sentinel))), hnext1, hf]
  have hread3 : t3.read (some s) CzNode.next = some (some f) := by
    rw [read_eq ((hlive3 s).mpr (Or.inr h.live_sentinel)), hnext3, Function.update_of_ne hsn, hf]
  -- those of its neighbours
  obtain ⟨t4, hrun4, h4⟩ :=
    write_spec ((hlive3 f).mpr (Or.inr hflive)) fun m => { m with pre := some n }
  have hnil4 : t4.nil = some s := h4.nil.trans hnil3
  obtain ⟨t5, hrun5, h5⟩ :=
    write_spec ((h4.live_iff s).mpr ((hlive3 s).mpr (Or.inr h.live_sentinel))) fun m =>
      { m with next := some n }
  have hnext5 : t5.field CzNode.next =
      Function.update (Function.update (t'.field CzNode.next) n (some f)) s (some n) := by
    rw [h5.field_set fun _ => rfl, h4.field_keep fun _ => rfl, hnext3]
  have hpre5 : t5.field CzNode.pre =
      Function.update (Function.update (t'.field CzNode.pre) n (some s)) f (some n) := by
    rw [h5.field_keep fun _ => rfl, h4.field_set fun _ => rfl, h13.field_set fun _ => rfl, hpre0]
  have hval5 : t5.field CzNode.val = Function.update (t'.field CzNode.val) n (some v) := by
    rw [h5.field_keep fun _ => rfl, h4.field_keep fun _ => rfl, h13.field_set fun _ => rfl, hval0]
  refine ⟨t5, n, ?_, h5.nil.trans hnil4, h.circular.push hns ?_ ?_, ?_⟩
  · simp only [push, hnil, hcreate, hrun1, hnil1, hread1, hrun2, hrun3, hnil3, hread3, hrun4, hnil4,
      hrun5, h2.nil, Option.bind_eq_bind, Option.bind_some]
  · intro q
    rw [hnext5, Function.update_apply, Function.update_apply, hf]
  · intro q
    rw [hpre5, Function.update_apply, Function.update_apply, hf]
    by_cases hq : q = n
    · have hqf : q ≠ f := fun heq => hfn (heq.symm.trans hq)
      rw [if_neg hqf]
      simp only [if_pos hq]
    · simp only [if_neg hq, Option.some_inj, eq_comm (a := q) (b := f)]
  · intro c hc
    rw [hval5]
    rcases List.mem_cons.mp hc with rfl | hc
    · exact Function.update_self ..
    · have hcn : c.1 ≠ n := fun heq => hns (heq ▸ List.mem_cons_of_mem _ (List.mem_map_of_mem hc))
      rw [Function.update_of_ne hcn]
      exact h.vals c hc

/-! ## Search -/

/-- The loop of `search` ends at the first node with the key. -/
theorem searchLoop_spec (equalKey : α → α → Bool) (key : α) (h : Holds s cells t) :
    ∀ (xs ys : List (Ptr × α)) {fuel : ℕ}, cells = xs ++ ys → ys.length < fuel →
      searchLoop equalKey key fuel (some ((ys.map Prod.fst).headD s)) t =
        some ((ys.find? fun c => equalKey c.2 key).map Prod.fst)
  | _, [], fuel + 1, _, _ => by
      rw [searchLoop, h.nil]
      exact if_neg (not_not.mpr rfl)
  | xs, c :: ys, fuel + 1, hcells, hfuel => by
      obtain ⟨hne, hval, hread⟩ := h.at_cell hcells
      rw [List.map_cons, List.headD_cons, searchLoop, if_pos hne]
      simp only [hval, hread, Option.bind_eq_bind, Option.bind_some]
      cases heq : equalKey c.2 key with
      | true => simp [heq]
      | false =>
          have ih := searchLoop_spec equalKey key h (xs ++ [c]) ys (by simpa using hcells)
            (Nat.lt_of_succ_lt_succ hfuel)
          simpa [heq] using ih

/-- `search` answers the first node with the key, or null. -/
theorem search_spec (equalKey : α → α → Bool) (key : α) (h : Holds s cells t) :
    search equalKey key t = some ((cells.find? fun c => equalKey c.2 key).map Prod.fst) := by
  rw [search, h.nil, read_eq h.live_sentinel, h.circular.next_sentinel]
  exact searchLoop_spec equalKey key h [] cells rfl h.length_lt

/-! ## Deletion -/

/-- Without a node that has the key, nothing changes. -/
theorem del_absent (equalKey : α → α → Bool) (h : Holds s cells t)
    (hnone : ∀ c ∈ cells, equalKey c.2 v = false) : del equalKey v t = some (-1, t) := by
  have hfind : (cells.find? fun c => equalKey c.2 v) = none :=
    List.find?_eq_none.mpr fun c hc => by simp [hnone c hc]
  simp only [del, search_spec equalKey v h, hfind, Option.map_none, Option.bind_eq_bind,
    Option.bind_some, if_pos]

/-- With one, control runs off the end. -/
theorem del_present (equalKey : α → α → Bool) (h : Holds s cells t) {c : Ptr × α}
    (hc : c ∈ cells) (hkey : equalKey c.2 v = true) : del equalKey v t = none := by
  have hfind : (cells.find? fun c => equalKey c.2 v).isSome := List.find?_isSome.mpr ⟨c, hc, hkey⟩
  obtain ⟨d, hd⟩ := Option.isSome_iff_exists.mp hfind
  simp only [del, search_spec equalKey v h, hd, Option.map_some, Option.bind_eq_bind,
    Option.bind_some, if_neg (Option.some_ne_none _), Option.bind_fun_none]

/-! ## Walks -/

/-- The nodes that the links `f` lead past, from `p` to the sentinel. -/
def walk (f : CzNode α → Option Ptr) : Nat → Option Ptr → CzList α → Option (List Ptr)
  | 0, _, _ => none
  | fuel + 1, p, t =>
      if p = t.nil then some []
      else do
        let q ← p
        let rest ← walk f fuel (← t.read p f) t
        some (q :: rest)

/-- The nodes that the links `f` lead past, from the sentinel back to it. -/
def around (f : CzNode α → Option Ptr) (t : CzList α) : Option (List Ptr) := do
  let p ← t.read t.nil f
  walk f t.heap.size p t

section Walk

variable {f g : CzNode α → Option Ptr} {ps : List Ptr}

theorem walk_spec (hnil : t.nil = some s) (h : Circular (t.field f) (t.field g) s ps) :
    ∀ (qs rs : List Ptr) {fuel : ℕ}, ps = qs ++ rs → rs.length < fuel →
      walk f fuel (some (rs.headD s)) t = some rs
  | _, [], fuel + 1, _, _ => by rw [walk, hnil, List.headD_nil, if_pos rfl]
  | qs, p :: rs, fuel + 1, hps, hfuel => by
      have hcell := h
      rw [hps] at hcell
      have hne : ¬ (some p : Option Ptr) = t.nil := by
        rw [hnil]
        intro heq
        obtain ⟨hs, _⟩ := List.nodup_cons.mp hcell.nodup
        exact hs (Option.some.inj heq ▸ List.mem_append_right _ List.mem_cons_self)
      have hnext := hcell.next_cell
      have ih := walk_spec hnil h (qs ++ [p]) rs (by simpa using hps)
        (Nat.lt_of_succ_lt_succ hfuel)
      rw [List.headD_cons, walk, if_neg hne]
      simp only [read_eq (live_of_field hnext), hnext, ih, Option.bind_eq_bind, Option.bind_some]

/-- The links in one direction lead past every node once. -/
theorem around_spec (hnil : t.nil = some s) (h : Circular (t.field f) (t.field g) s ps)
    (hsize : ps.length < t.heap.size) : around f t = some ps := by
  have hnext := h.next_sentinel
  rw [around, hnil, read_eq (live_of_field hnext), hnext]
  exact walk_spec hnil h [] ps rfl hsize

end Walk

theorem iterate_spec (h : Holds s cells t) : ∀ (xs ys : List (Ptr × α)) {fuel : ℕ},
    cells = xs ++ ys → ys.length < fuel →
      iterate fuel (some ((ys.map Prod.fst).headD s)) t = some ys
  | _, [], fuel + 1, _, _ => by
      rw [iterate, h.nil]
      exact if_pos rfl
  | xs, c :: ys, fuel + 1, hcells, hfuel => by
      obtain ⟨hne, hval, hread⟩ := h.at_cell hcells
      have ih := iterate_spec h (xs ++ [c]) ys (by simpa using hcells)
        (Nat.lt_of_succ_lt_succ hfuel)
      rw [List.map_cons, List.headD_cons, iterate, if_neg (Ne.symm hne)]
      simp only [hval, succ, if_neg (Option.some_ne_none _), hread, ih, Option.bind_eq_bind,
        Option.bind_some]

/-- The nodes from `begin()` to `end()`. -/
theorem Holds.elements (h : Holds s cells t) : elements t = some cells := by
  rw [CzList.elements, begin, h.nil, read_eq h.live_sentinel, h.circular.next_sentinel]
  exact iterate_spec h [] cells rfl h.length_lt

/-! ## Runs -/

/-- A call. -/
inductive Op (α : Type) where
  | push (v : α)
  | del (v : α)
  | search (key : α)

/-- The list after a call. -/
def step (equalKey : α → α → Bool) : Op α → CzList α → Option (CzList α)
  | .push v, t => (push v t).map Prod.snd
  | .del v, t => (del equalKey v t).map Prod.snd
  | .search key, t => (search equalKey key t).map fun _ => t

/-- The values that should be in the list, the last one pushed first. -/
def contents (equalKey : α → α → Bool) (ops : List (Op α)) : List α :=
  ops.foldl (fun vs op =>
    match op with
    | .push v => v :: vs
    | .del v => vs.eraseP fun w => equalKey w v
    | .search _ => vs) []

/-- No `del` is for a value that one pushed before it equals. -/
def Misses (equalKey : α → α → Bool) (ops : List (Op α)) : Prop :=
  ∀ past v rest, ops = past ++ .del v :: rest → ∀ w, Op.push w ∈ past → equalKey w v = false

variable {equalKey : α → α → Bool} {ops : List (Op α)}

/-- One more call, and what it must not find. -/
theorem misses_concat {op : Op α} : Misses equalKey (ops ++ [op]) ↔
    Misses equalKey ops ∧ ∀ v, op = .del v → ∀ w, Op.push w ∈ ops → equalKey w v = false := by
  constructor
  · intro h
    refine ⟨fun past v rest hops => h past v (rest ++ [op]) ?_, fun v hop => h ops v [] ?_⟩
    · rw [hops, List.append_assoc, List.cons_append]
    · rw [hop]
  · rintro ⟨h, hlast⟩ past v rest hops
    rcases List.eq_nil_or_concat rest with rfl | ⟨rest, o, rfl⟩
    · obtain ⟨rfl, hop⟩ := List.append_inj' hops rfl
      exact hlast v (List.cons.inj hop).1
    · rw [List.concat_eq_append, ← List.cons_append, ← List.append_assoc] at hops
      exact h past v rest (List.append_inj' hops rfl).1

@[simp] theorem contents_push (v : α) :
    contents equalKey (ops ++ [.push v]) = v :: contents equalKey ops := by
  rw [contents, List.foldl_concat, ← contents]

@[simp] theorem contents_del (v : α) : contents equalKey (ops ++ [.del v]) =
    (contents equalKey ops).eraseP fun w => equalKey w v := by
  rw [contents, List.foldl_concat, ← contents]

@[simp] theorem contents_search (key : α) :
    contents equalKey (ops ++ [.search key]) = contents equalKey ops := by
  rw [contents, List.foldl_concat, ← contents]

/-- Then the values in the list are those that were pushed. -/
theorem Misses.mem_contents (h : Misses equalKey ops) :
    ∀ w, w ∈ contents equalKey ops ↔ Op.push w ∈ ops := by
  induction ops using List.reverseRecOn with
  | nil => simp [contents]
  | append_singleton ops op ih =>
      obtain ⟨hpast, hlast⟩ := misses_concat.mp h
      have ih := ih hpast
      intro w
      cases op with
      | push v => simp [ih, or_comm]
      | search key => simp [ih]
      | del v =>
          have hnone : ∀ w ∈ contents equalKey ops, ¬ equalKey w v = true := by
            intro w hw
            simp [hlast v rfl w ((ih w).mp hw)]
          rw [contents_del, List.eraseP_of_forall_not hnone]
          simp [ih]

/-- One more call: it comes back exactly when it is no `del` that finds a node. -/
theorem Holds.step (h : Holds s cells t) (hmiss : Misses equalKey ops)
    (hvals : cells.map Prod.snd = contents equalKey ops) (op : Op α) :
    (Misses equalKey (ops ++ [op]) → ∃ t' cells', step equalKey op t = some t' ∧
        Holds s cells' t' ∧ cells'.map Prod.snd = contents equalKey (ops ++ [op])) ∧
      (¬ Misses equalKey (ops ++ [op]) → step equalKey op t = none) := by
  rw [misses_concat]
  cases op with
  | push v =>
      refine ⟨fun _ => ?_, fun hno => absurd ⟨hmiss, fun w hop => by cases hop⟩ hno⟩
      obtain ⟨t', p, hrun, h'⟩ := push_spec h.ensureNil h v
      refine ⟨t', _, by rw [CzList.step, hrun, Option.map_some], h', ?_⟩
      rw [contents_push, List.map_cons, hvals]
  | search key =>
      refine ⟨fun _ => ?_, fun hno => absurd ⟨hmiss, fun w hop => by cases hop⟩ hno⟩
      refine ⟨t, cells, ?_, h, by rw [contents_search, hvals]⟩
      rw [CzList.step, search_spec equalKey key h, Option.map_some]
  | del v =>
      have hmem : ∀ w, Op.push w ∈ ops ↔ ∃ c ∈ cells, c.2 = w := by
        intro w
        rw [← hmiss.mem_contents w, ← hvals, List.mem_map]
      constructor
      · rintro ⟨_, hlast⟩
        have hnone : ∀ c ∈ cells, equalKey c.2 v = false := fun c hc =>
          hlast v rfl c.2 ((hmem c.2).mpr ⟨c, hc, rfl⟩)
        refine ⟨t, cells, by rw [CzList.step, del_absent equalKey h hnone, Option.map_some], h, ?_⟩
        rw [contents_del, ← hvals, List.eraseP_of_forall_not]
        intro w hw
        obtain ⟨c, hc, rfl⟩ := List.mem_map.mp hw
        simp [hnone c hc]
      · intro hno
        obtain ⟨c, hc, hkey⟩ : ∃ c ∈ cells, equalKey c.2 v = true := by
          by_contra hall
          refine hno ⟨hmiss, fun v' hop w hw => ?_⟩
          cases hop
          obtain ⟨c, hc, rfl⟩ := (hmem w).mp hw
          exact Bool.eq_false_iff.mpr fun hkey => hall ⟨c, hc, hkey⟩
        rw [CzList.step, del_present equalKey h hc hkey, Option.map_none]

/-- The first `push` makes the sentinel. -/
theorem run_first (equalKey : α → α → Bool) (v : α) : ∃ t cells,
    CzList.step equalKey (.push v) new = some t ∧ Holds 0 cells t ∧
      cells.map Prod.snd = contents equalKey [.push v] := by
  obtain ⟨t, hnil, h⟩ := ensureNil_new (α := α)
  obtain ⟨t', p, hrun, h'⟩ := push_spec hnil h v
  exact ⟨t', _, by rw [CzList.step, hrun, Option.map_some], h', rfl⟩

/-- The calls after it come back exactly when no `del` finds a node, and leave the list there. -/
theorem run_holds (equalKey : α → α → Bool) (v : α) (ops : List (Op α)) :
    (∀ t, run (CzList.step equalKey) (.push v :: ops) new = some t →
        Misses equalKey (.push v :: ops)) ∧
      (Misses equalKey (.push v :: ops) → ∃ t,
        run (CzList.step equalKey) (.push v :: ops) new = some t ∧ ∃ cells, Holds 0 cells t ∧
          cells.map Prod.snd = contents equalKey (.push v :: ops)) := by
  obtain ⟨t1, cells1, hfirst, h1, hvals1⟩ := run_first equalKey v
  have hmiss1 : Misses equalKey ([] ++ [.push v]) :=
    misses_concat.mpr ⟨fun past w rest h => by simp at h, fun w h => by cases h⟩
  obtain ⟨hends, hmeets⟩ := run_ends_iff (CzList.step equalKey) t1
    (fun past t => ∃ cells, Holds 0 cells t ∧ Misses equalKey (.push v :: past) ∧
      cells.map Prod.snd = contents equalKey (.push v :: past))
    (fun past => Misses equalKey (.push v :: past)) ⟨cells1, h1, hmiss1, hvals1⟩ hmiss1
    (fun past op h => (misses_concat.mp h).1) (fun past op t h hmiss => by
      obtain ⟨cells, h, hpast, hvals⟩ := h
      obtain ⟨t', cells', hstep, h', hvals'⟩ := (h.step hpast hvals op).1 hmiss
      exact ⟨t', hstep, cells', h', hmiss, hvals'⟩)
    (fun past op t h hno => by
      obtain ⟨cells, h, hpast, hvals⟩ := h
      exact (h.step hpast hvals op).2 hno) ops
  constructor
  · intro t hrun
    obtain ⟨m, hm, hrest⟩ := run_cons.mp hrun
    obtain rfl := Option.some.inj (hfirst.symm.trans hm)
    exact hends t hrest
  · intro hmiss
    obtain ⟨t, hrun, cells, h, _, hvals⟩ := hmeets hmiss
    exact ⟨t, run_cons.mpr ⟨t1, hfirst, hrun⟩, cells, h, hvals⟩

/-- After any calls that begin with a `push`, the list is there, and is what it should be, exactly
when no `del` was for a value that one pushed before it equals. It should be so: the links lead
from the sentinel past every node once and back to it, and those in the other direction past the
same nodes in reverse; from `begin()` to `end()` the values are those pushed, the last one first,
without the first one that each successful `del` found; `search` finds the first node with the
key, and `del` changes nothing when there is none. -/
theorem run_contents_iff (equalKey : α → α → Bool) (v : α) (ops : List (Op α)) :
    (∃ t s cells, run (CzList.step equalKey) (.push v :: ops) new = some t ∧ t.nil = some s ∧
      around CzNode.next t = some (cells.map Prod.fst) ∧
      around CzNode.pre t = some (cells.map Prod.fst).reverse ∧
      (s :: cells.map Prod.fst).Nodup ∧ CzList.elements t = some cells ∧
      cells.map Prod.snd = contents equalKey (.push v :: ops) ∧
      ∀ key, search equalKey key t =
          some ((cells.find? fun c => equalKey c.2 key).map Prod.fst) ∧
        ((∀ c ∈ cells, equalKey c.2 key = false) → del equalKey key t = some (-1, t))) ↔
      Misses equalKey (.push v :: ops) := by
  obtain ⟨hends, hmeets⟩ := run_holds equalKey v ops
  constructor
  · rintro ⟨t, s, cells, hrun, _⟩
    exact hends t hrun
  · intro hmiss
    obtain ⟨t, hrun, cells, h, hvals⟩ := hmeets hmiss
    have hlen : (cells.map Prod.fst).length < t.heap.size := by
      rw [List.length_map]
      exact h.length_lt
    refine ⟨t, 0, cells, hrun, h.nil, around_spec h.nil h.circular hlen,
      around_spec h.nil h.circular.reverse (by rwa [List.length_reverse]), h.circular.nodup,
      h.elements, hvals, fun key => ⟨search_spec equalKey key h, fun hnone => ?_⟩⟩
    exact del_absent equalKey h hnone

/-- The value that was pushed is found, and control runs off the end of `del`. -/
theorem del_runs_off :
    contents (fun a b => decide (a = b)) [.push (1 : Int32), .del 1] = [] ∧
      run (CzList.step fun a b => decide (a = b)) [.push (1 : Int32), .del 1] new = none := by
  constructor <;> decide +kernel

end LibC.CzList
