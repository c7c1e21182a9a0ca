/-
LibC.Proxy.BufferTheorems — what a buffer sequence stands for.

`b.Holds app data` says that `data` are the bytes that are left in a buffer, and
that they can be read as long as the application data is `app`. An empty buffer
holds nothing and is never read, so it may be a dangling one.

`Advance` drops bytes from the front (`Holds.advance`), `InitIoVec` gives exactly
the bytes that are left (`Holds.initIoVec`), and after `Solidify` the sequence
holds its bytes whatever becomes of the application data (`Holds.solidify`).

No `sorry`, no `axiom`, no `native_decide`.
-/
import LibC.Proxy.Buffer
import Mathlib.Data.List.Forall2

namespace LibC

open LibC.Lib

/-! ## StaticBuffer -/

namespace StaticBuffer

variable {app : AppData} {b : StaticBuffer} {data : Bytes}

theorem empty_iff : b.empty = true ↔ b.remain = 0 := by
  have := b.ptr_le
  simp only [empty, remain, decide_eq_true_eq]
  omega

theorem empty_eq_false_iff : b.empty = false ↔ 0 < b.remain := by
  rw [← Bool.not_eq_true, empty_iff, Nat.pos_iff_ne_zero]

/-- `data` is left in the buffer, and can be read. -/
structure Holds (app : AppData) (b : StaticBuffer) (data : Bytes) : Prop where
  length : data.length = b.remain
  read : b.empty = false → b.str app = some data

theorem Holds.eq_nil (h : Holds app b data) (he : b.empty = true) : data = [] :=
  List.eq_nil_of_length_eq_zero (by rw [h.length, empty_iff.mp he])

theorem holds_ofDynamic (app : AppData) (data : Bytes) : Holds app (ofDynamic data) data :=
  ⟨rfl, fun _ => by simp [str, ofDynamic, Base.read, remain]⟩

theorem holds_ofApp (app : AppData) : Holds app (ofApp app) app.bytes :=
  ⟨rfl, fun _ => by simp [str, ofApp, Base.read, remain]⟩

theorem remain_advance {n : ℕ} (hn : n ≤ b.remain) : (b.advance n).remain = b.remain - n := by
  rw [advance, dif_neg (by omega)]
  simp only [remain]
  omega

/-- `Advance` drops bytes from the front. -/
theorem Holds.advance (h : Holds app b data) {n : ℕ} (hn : n ≤ b.remain) :
    Holds app (b.advance n) (data.drop n) := by
  refine ⟨by rw [List.length_drop, h.length, remain_advance hn], fun hne => ?_⟩
  have hpos : 0 < b.remain := by
    have := empty_eq_false_iff.mp hne
    rw [remain_advance hn] at this
    omega
  have hread := h.read (empty_eq_false_iff.mpr hpos)
  simp only [str, Option.map_eq_some_iff] at hread ⊢
  obtain ⟨mem, hmem, rfl⟩ := hread
  refine ⟨mem, by rw [StaticBuffer.advance, dif_neg (by omega)]; exact hmem, ?_⟩
  rw [remain_advance hn, StaticBuffer.advance, dif_neg (by omega), List.drop_take, List.drop_drop]

end StaticBuffer

/-! ## BufferSequence -/

namespace BufferSequence

variable {app : AppData} {bs : BufferSequence} {data : Bytes}

/-- `data` is left in the sequence, and can be read. -/
def Holds (app : AppData) (bs : BufferSequence) (data : Bytes) : Prop :=
  ∃ ds, List.Forall₂ (StaticBuffer.Holds app) bs.buffers ds ∧ ds.flatten = data ∧
    bs.totalSize = data.length

theorem holds_new (app : AppData) : Holds app new [] := ⟨[], List.Forall₂.nil, rfl, rfl⟩

theorem Holds.empty_iff (h : Holds app bs data) : bs.empty = true ↔ data = [] := by
  obtain ⟨_, _, _, htotal⟩ := h
  rw [empty, decide_eq_true_eq, htotal, List.length_eq_zero_iff]

/-- `operator+=` puts the bytes of a buffer behind the others. -/
theorem Holds.add (h : Holds app bs data) {b : StaticBuffer} {d : Bytes}
    (hb : StaticBuffer.Holds app b d) (hlen : bs.buffers.length < bufferSequenceCount) :
    ∃ bs', bs.add b = some bs' ∧ bs'.buffers.length = bs.buffers.length + 1 ∧
      Holds app bs' (data ++ d) := by
  obtain ⟨ds, hall, rfl, htotal⟩ := h
  refine ⟨⟨bs.buffers ++ [b], bs.totalSize + b.remain⟩,
    by rw [BufferSequence.add, if_neg (by omega)], by simp, ds ++ [d],
    List.rel_append hall (List.Forall₂.cons hb List.Forall₂.nil), by simp, ?_⟩
  rw [List.length_append, htotal, hb.length]

/-- The buffers that are not empty can be read. -/
theorem mapM_str : ∀ {bufs : List StaticBuffer} {ds : List Bytes},
    List.Forall₂ (StaticBuffer.Holds app) bufs ds →
    ((bufs.filter fun b => !b.empty).mapM fun b => b.str app) = some (ds.filter fun d => d ≠ [])
  | [], _, h => by cases h; rfl
  | b :: bufs, d :: ds, .cons hb h => by
      cases he : b.empty with
      | true =>
          rw [hb.eq_nil he]
          simpa [he] using mapM_str h
      | false =>
          have hne : d ≠ [] := fun hnil => by
            have := hb.length
            rw [hnil, List.length_nil] at this
            have := StaticBuffer.empty_eq_false_iff.mp he
            omega
          have hrest := mapM_str h
          simp [he, hne, hb.read he, List.mapM_cons] at hrest ⊢
          simp [hrest]

/-- Empty strings add nothing. -/
theorem flatten_filter_ne_nil : ∀ ds : List Bytes, (ds.filter fun d => d ≠ []).flatten = ds.flatten
  | [] => rfl
  | d :: ds => by
      by_cases hd : d = []
      · rw [List.filter_cons_of_neg (by simpa using hd), flatten_filter_ne_nil ds, hd]
        rfl
      · rw [List.filter_cons_of_pos (by simpa using hd), List.flatten_cons,
          flatten_filter_ne_nil ds, List.flatten_cons]

/-- `InitIoVec` gives the bytes that are left. -/
theorem Holds.initIoVec (h : Holds app bs data) :
    ∃ vec, bs.initIoVec app = some vec ∧ vec.flatten = data := by
  obtain ⟨ds, hall, rfl, _⟩ := h
  exact ⟨_, mapM_str hall, flatten_filter_ne_nil ds⟩

/-- The loop of `Advance`. -/
theorem advanceBuffers_spec : ∀ {bufs : List StaticBuffer} {ds : List Bytes},
    List.Forall₂ (StaticBuffer.Holds app) bufs ds → ∀ len total, len ≤ ds.flatten.length →
    ∃ ds', List.Forall₂ (StaticBuffer.Holds app) (advanceBuffers bufs len total).1 ds' ∧
      ds'.flatten = ds.flatten.drop len ∧ (advanceBuffers bufs len total).2 = total - len
  | [], _, h, len, total, hlen => by
      cases h
      have hzero : len = 0 := by simpa using hlen
      subst hzero
      exact ⟨[], List.Forall₂.nil, rfl, rfl⟩
  | b :: bufs, d :: ds, .cons hb h, len, total, hlen => by
      rw [List.flatten_cons, List.length_append] at hlen
      rw [List.flatten_cons, List.drop_append]
      by_cases hpos : len > 0
      · cases he : b.empty with
        | true =>
            obtain ⟨ds', hall, hflat, htotal⟩ := advanceBuffers_spec h len total (by
              rw [hb.eq_nil he, List.length_nil] at hlen; omega)
            refine ⟨d :: ds', ?_, ?_, ?_⟩
            · simpa [advanceBuffers, hpos, he] using List.Forall₂.cons hb hall
            · rw [List.flatten_cons, hflat, hb.eq_nil he]
              simp
            · simpa [advanceBuffers, hpos, he] using htotal
        | false =>
            have hmin : min b.remain len ≤ b.remain := Nat.min_le_left _ _
            have hdlen := hb.length
            obtain ⟨ds', hall, hflat, htotal⟩ := advanceBuffers_spec h
              (len - min b.remain len) (total - min b.remain len) (by omega)
            refine ⟨d.drop (min b.remain len) :: ds', ?_, ?_, ?_⟩
            · simpa [advanceBuffers, hpos, he] using List.Forall₂.cons (hb.advance hmin) hall
            · rw [List.flatten_cons, hflat, ← hdlen]
              congr 1
              · rcases Nat.le_total d.length len with hle | hle
                · rw [Nat.min_eq_left hle, List.drop_length, List.drop_eq_nil_of_le hle]
                · rw [Nat.min_eq_right hle]
              · congr 1
                omega
            · have : (advanceBuffers (b :: bufs) len total).2 =
                  (advanceBuffers bufs (len - min b.remain len) (total - min b.remain len)).2 := by
                simp [advanceBuffers, hpos, he]
              rw [this, htotal]
              omega
      · have hzero : len = 0 := by omega
        subst hzero
        refine ⟨d :: ds, ?_, by simp, by simp [advanceBuffers]⟩
        simpa [advanceBuffers] using List.Forall₂.cons hb h

/-- `Advance` drops bytes from the front. -/
theorem Holds.advance (h : Holds app bs data) {n : ℕ} (hn : n ≤ data.length) :
    Holds app (bs.advance n) (data.drop n) := by
  obtain ⟨ds, hall, rfl, htotal⟩ := h
  obtain ⟨ds', hall', hflat, htotal'⟩ := advanceBuffers_spec hall n bs.totalSize hn
  exact ⟨ds', hall', hflat, by rw [List.length_drop, ← htotal]; exact htotal'⟩

/-- A buffer that is solid or empty is held whatever the application data. -/
theorem solidifyBuffer_spec {b : StaticBuffer} {d : Bytes} (h : StaticBuffer.Holds app b d) :
    ∃ b', solidifyBuffer app b = some b' ∧ ∀ app', StaticBuffer.Holds app' b' d := by
  by_cases hcopy : (!b.empty && !b.solided) = true
  · have hne : b.empty = false := by
      cases he : b.empty <;> simp [he] at hcopy ⊢
    exact ⟨.ofDynamic d, by rw [solidifyBuffer, if_pos hcopy, h.read hne]; rfl,
      fun app' => StaticBuffer.holds_ofDynamic app' d⟩
  · refine ⟨b, by rw [solidifyBuffer, if_neg hcopy], fun app' => ⟨h.length, fun hne => ?_⟩⟩
    have hread := h.read hne
    cases hbase : b.base with
    | own mem => simpa [StaticBuffer.str, hbase, Base.read] using hread
    | app version => simp [hne, StaticBuffer.solided, hbase] at hcopy

theorem mapM_solidifyBuffer : ∀ {bufs : List StaticBuffer} {ds : List Bytes},
    List.Forall₂ (StaticBuffer.Holds app) bufs ds →
    ∃ bufs', bufs.mapM (solidifyBuffer app) = some bufs' ∧
      ∀ app', List.Forall₂ (StaticBuffer.Holds app') bufs' ds
  | [], _, h => by cases h; exact ⟨[], rfl, fun _ => List.Forall₂.nil⟩
  | b :: bufs, _, .cons hb h => by
      obtain ⟨b', hsolid, hb'⟩ := solidifyBuffer_spec hb
      obtain ⟨bufs', hrest, h'⟩ := mapM_solidifyBuffer h
      exact ⟨b' :: bufs', by simp [List.mapM_cons, hsolid, hrest],
        fun app' => List.Forall₂.cons (hb' app') (h' app')⟩

/-- Buffers that are all empty hold nothing, whatever the application data. -/
theorem forall₂_holds_nil : ∀ {bufs : List StaticBuffer} {ds : List Bytes},
    List.Forall₂ (StaticBuffer.Holds app) bufs ds → ds.flatten = [] →
    ∀ app', List.Forall₂ (StaticBuffer.Holds app') bufs ds
  | [], _, h, _, _ => by cases h; exact List.Forall₂.nil
  | b :: bufs, _, .cons (b := d) hb h, hnil, app' => by
      obtain ⟨rfl, hnil⟩ := List.append_eq_nil_iff.mp hnil
      refine List.Forall₂.cons ⟨hb.length, fun hne => ?_⟩ (forall₂_holds_nil h hnil app')
      have := StaticBuffer.empty_eq_false_iff.mp hne
      rw [← hb.length, List.length_nil] at this
      omega

/-- After `Solidify` the bytes no longer depend on the application data. -/
theorem Holds.solidify (h : Holds app bs data) :
    ∃ bs', bs.solidify app = some bs' ∧ ∀ app', Holds app' bs' data := by
  obtain ⟨ds, hall, rfl, htotal⟩ := h
  by_cases hzero : bs.totalSize = 0
  · have hnil : ds.flatten = [] := List.eq_nil_of_length_eq_zero (by omega)
    exact ⟨bs, by rw [BufferSequence.solidify, if_pos hzero], fun app' =>
      ⟨ds, forall₂_holds_nil hall hnil app', rfl, htotal⟩⟩
  · obtain ⟨bufs', hmap, h'⟩ := mapM_solidifyBuffer hall
    exact ⟨⟨bufs', bs.totalSize⟩, by rw [BufferSequence.solidify, if_neg hzero, hmap]; rfl,
      fun app' => ⟨ds, h' app', rfl, htotal⟩⟩

end BufferSequence

end LibC
