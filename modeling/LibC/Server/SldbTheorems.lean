/-
LibC.Server.SldbTheorems — writing and reading one record.

`record type body` is a record of the file: the type byte, the length of the
body in one, two or five bytes (`lenBytes`), the body.

1. `saveObj_spec`: `SaveObj` stores the whole record when every `FileWrite`
   call it makes succeeds and the body is not empty, and a proper prefix of it
   otherwise; it answers a negative number in the second case, and also when
   the number of bytes does not fit in an `int`.
2. `loadRawString_record`: reading a record gives its body back and leaves what
   follows.
3. `loadRawString_cut`: reading a proper prefix of a record, whatever byte it
   was cut at, fails and leaves nothing.

No `sorry`, no `axiom`, no `native_decide`.
-/
import LibC.Server.Sldb
import Mathlib.Tactic.Ring

namespace LibC

open LibC.Lib

/-! ## The format -/

/-- The bytes of a length. -/
def lenBytes (n : ℕ) : Bytes :=
  if n < 2 ^ 6 then [UInt8.ofNat n]
  else if n < 2 ^ 14 then [UInt8.ofNat (n / 256 + 64), UInt8.ofNat (n % 256)]
  else 128 :: htonl (UInt32.ofNat n)

/-- A record of the file. -/
def record (type : MsgNodeType) (body : Bytes) : Bytes :=
  type.toByte :: (lenBytes body.length ++ body)

/-- The number of `FileWrite` calls a length takes. -/
def lenCalls (n : ℕ) : ℕ := if n < 2 ^ 14 then 1 else 2

theorem lenBytes_length_pos (n : ℕ) : 0 < (lenBytes n).length := by
  unfold lenBytes; split
  · simp
  · split <;> simp

/-! ## Bits -/

theorem and_mask {a k : ℕ} : a &&& (2 ^ k - 1) = a % 2 ^ k := Nat.and_two_pow_sub_one_eq_mod a k

/-- Disjoint bits add up. -/
theorem mul_or {a b k : ℕ} (h : b < 2 ^ k) : a * 2 ^ k ||| b = a * 2 ^ k + b := by
  rw [Nat.mul_comm, ← Nat.two_pow_add_eq_or_of_lt h]

/-- The byte of a length below `2^6`. -/
theorem byte_len6 (n : ℕ) :
    ((UInt32.ofNat n &&& (0xFF : UInt32)) ||| (MsgLenType.bs6Bit <<< (6 : UInt32))).toUInt8 =
      UInt8.ofNat n := by
  apply UInt8.toNat_inj.mp
  simp only [MsgLenType.bs6Bit, UInt32.toNat_toUInt8, UInt32.toNat_or, UInt32.toNat_and,
    UInt32.toNat_ofNat', UInt32.toNat_shiftLeft, UInt8.toNat_ofNat', UInt32.reduceToNat]
  rw [show (255 : ℕ) = 2 ^ 8 - 1 from rfl, and_mask]
  simp

/-- The first byte of a length below `2^14`. -/
theorem byte_len14_hi {n : ℕ} (h : n < 2 ^ 14) :
    (((UInt32.ofNat n >>> (8 : UInt32)) &&& (0xFF : UInt32)) |||
      (MsgLenType.bs14Bit <<< (6 : UInt32))).toUInt8 = UInt8.ofNat (n / 256 + 64) := by
  apply UInt8.toNat_inj.mp
  simp only [MsgLenType.bs14Bit, UInt32.toNat_toUInt8, UInt32.toNat_or, UInt32.toNat_and,
    UInt32.toNat_ofNat', UInt32.toNat_shiftLeft, UInt32.toNat_shiftRight, UInt8.toNat_ofNat',
    UInt32.reduceToNat, Nat.reduceMod, Nat.reduceShiftLeft]
  have hs : (n % 2 ^ 32) >>> 8 &&& 255 = n / 256 := by
    rw [show (255 : ℕ) = 2 ^ 8 - 1 from rfl, and_mask, Nat.shiftRight_eq_div_pow]
    omega
  rw [hs, Nat.or_comm, show 64 % 2 ^ 32 = 1 * 2 ^ 6 from rfl, mul_or (by omega)]
  omega

/-- The second byte of a length below `2^14`. -/
theorem byte_len14_lo (n : ℕ) :
    (UInt32.ofNat n &&& (0xFF : UInt32)).toUInt8 = UInt8.ofNat (n % 256) := by
  apply UInt8.toNat_inj.mp
  simp only [UInt32.toNat_toUInt8, UInt32.toNat_and, UInt32.toNat_ofNat', UInt8.toNat_ofNat',
    UInt32.reduceToNat]
  rw [show (255 : ℕ) = 2 ^ 8 - 1 from rfl, and_mask]
  omega

/-- What `LoadLen` makes of the byte of a length below `2^6`. -/
theorem decode_len6 {n : ℕ} (h : n < 64) :
    ((UInt8.ofNat n).toUInt32 &&& (0xC0 : UInt32)) >>> (6 : UInt32) = MsgLenType.bs6Bit ∧
      (UInt8.ofNat n).toUInt32 &&& (0x3F : UInt32) = UInt32.ofNat n := by
  have hall : ∀ m : Fin 64,
      ((UInt8.ofNat m).toUInt32 &&& (0xC0 : UInt32)) >>> (6 : UInt32) = MsgLenType.bs6Bit ∧
      (UInt8.ofNat m).toUInt32 &&& (0x3F : UInt32) = UInt32.ofNat m := by decide
  exact hall ⟨n, h⟩

/-- What `LoadLen` makes of the first byte of a length below `2^14`. -/
theorem decode_len14 {n : ℕ} (h : n < 64) :
    ((UInt8.ofNat (n + 64)).toUInt32 &&& (0xC0 : UInt32)) >>> (6 : UInt32) = MsgLenType.bs14Bit ∧
      (UInt8.ofNat (n + 64)).toUInt32 &&& (0x3F : UInt32) = UInt32.ofNat n := by
  have hall : ∀ m : Fin 64,
      ((UInt8.ofNat (m + 64)).toUInt32 &&& (0xC0 : UInt32)) >>> (6 : UInt32) =
        MsgLenType.bs14Bit ∧
      (UInt8.ofNat (m + 64)).toUInt32 &&& (0x3F : UInt32) = UInt32.ofNat m := by decide
  exact hall ⟨n, h⟩

/-- The two halves of a length below `2^14`. -/
theorem join_len14 {n : ℕ} (h : n < 2 ^ 14) :
    (UInt32.ofNat (n / 256) <<< (8 : UInt32)) ||| (UInt8.ofNat (n % 256)).toUInt32 =
      UInt32.ofNat n := by
  apply UInt32.toNat_inj.mp
  simp only [UInt32.toNat_or, UInt32.toNat_shiftLeft, UInt8.toNat_toUInt32, UInt32.toNat_ofNat',
    UInt8.toNat_ofNat', UInt32.reduceToNat, Nat.reduceMod]
  have e8 : (n / 256 % 2 ^ 32) <<< 8 % 2 ^ 32 = n / 256 * 2 ^ 8 := by
    rw [Nat.shiftLeft_eq]; omega
  rw [e8, mul_or (by omega)]
  omega

/-! ## Reading -/

theorem fileRead_append {xs rest : Bytes} (h : xs ≠ []) :
    fileRead xs.length (xs ++ rest) = (some xs, rest) := by
  have hlen : xs.length ≠ 0 := fun h0 => h (List.eq_nil_of_length_eq_zero h0)
  rw [fileRead, if_neg hlen, if_neg (by rw [List.length_append]; omega), List.take_left,
    List.drop_left]

theorem fileRead_one (b : UInt8) (rest : Bytes) : fileRead 1 (b :: rest) = (some [b], rest) :=
  fileRead_append (show [b] ≠ [] by simp)

/-- A read past the end fails and consumes what is left. -/
theorem fileRead_short {n : ℕ} {f : Bytes} (h : f.length < n) : fileRead n f = (none, []) := by
  rw [fileRead, if_neg (by omega), if_pos h]

/-- `LoadLen` reads back what `SaveLen` writes. -/
theorem loadLen_lenBytes (n : ℕ) (rest : Bytes) :
    loadLen (lenBytes n ++ rest) = (UInt32.ofNat n, rest) := by
  by_cases h6 : n < 2 ^ 6
  · obtain ⟨ht, hv⟩ := decode_len6 h6
    rw [lenBytes, if_pos h6, List.singleton_append, loadLen, fileRead_one]
    simp only [List.getD_cons_zero, ht, hv, if_true]
  · by_cases h14 : n < 2 ^ 14
    · obtain ⟨ht, hv⟩ := decode_len14 (n := n / 256) (by omega)
      rw [lenBytes, if_neg h6, if_pos h14, List.cons_append, List.singleton_append, loadLen,
        fileRead_one]
      simp only [List.getD_cons_zero, ht, hv]
      rw [if_neg (by decide), if_pos trivial, fileRead_one]
      simp only [List.getD_cons_zero, join_len14 h14]
    · rw [lenBytes, if_neg h6, if_neg h14, List.cons_append, loadLen, fileRead_one]
      simp only [List.getD_cons_zero]
      rw [if_neg (by decide), if_neg (by decide), if_pos (by decide)]
      have hread : fileRead 4 (htonl (UInt32.ofNat n) ++ rest) =
          (some (htonl (UInt32.ofNat n)), rest) :=
        fileRead_append (show htonl (UInt32.ofNat n) ≠ [] by simp [htonl])
      simp only [hread, ntohl_htonl]

/-- A length that is cut off anywhere is an error, and nothing is left. -/
theorem loadLen_cut {n : ℕ} {p : Bytes} (hp : p <+: lenBytes n) (hne : p ≠ lenBytes n) :
    loadLen p = (lenErr, []) := by
  have hlt : p.length < (lenBytes n).length :=
    Nat.lt_of_le_of_ne hp.length_le fun heq => hne (hp.eq_of_length heq)
  rcases p with _ | ⟨b, p⟩
  · rfl
  · rw [loadLen, fileRead_one]
    simp only [List.getD_cons_zero]
    by_cases h6 : n < 2 ^ 6
    · rw [lenBytes, if_pos h6] at hlt
      simp at hlt
    · by_cases h14 : n < 2 ^ 14
      · rw [lenBytes, if_neg h6, if_pos h14] at hlt hp
        obtain rfl : b = UInt8.ofNat (n / 256 + 64) := (List.cons_prefix_cons.mp hp).1
        simp only [List.length_cons, List.length_nil] at hlt
        obtain rfl : p = [] := List.eq_nil_of_length_eq_zero (by omega)
        obtain ⟨ht, _⟩ := decode_len14 (n := n / 256) (by omega)
        rw [ht, if_neg (by decide), if_pos rfl, fileRead_short (by simp)]
      · rw [lenBytes, if_neg h6, if_neg h14] at hlt hp
        obtain rfl : b = 128 := (List.cons_prefix_cons.mp hp).1
        rw [if_neg (by decide), if_neg (by decide), if_pos (by decide),
          fileRead_short (by simp [htonl] at hlt; omega)]

/-- A length below the error value fits, and is not the error value. -/
theorem ofNat_length {n : ℕ} (h : n < 2 ^ 32 - 1) :
    (UInt32.ofNat n).toNat = n ∧ UInt32.ofNat n ≠ lenErr := by
  have hnat : (UInt32.ofNat n).toNat = n := by
    rw [UInt32.toNat_ofNat']; exact Nat.mod_eq_of_lt (by omega)
  refine ⟨hnat, fun heq => ?_⟩
  rw [heq] at hnat
  simp only [lenErr, UInt32.reduceToNat] at hnat
  omega

/-- Reading a record gives its body back. -/
theorem loadRawString_record {body : Bytes} (hb : body ≠ []) (hlt : body.length < 2 ^ 32 - 1)
    (rest : Bytes) :
    loadRawString (lenBytes body.length ++ body ++ rest) = (some body, rest) := by
  obtain ⟨hnat, hne⟩ := ofNat_length hlt
  rw [List.append_assoc, loadRawString, loadLen_lenBytes]
  simp only [if_neg hne, hnat]
  exact fileRead_append hb

/-- Reading a record that is cut off after the type byte fails, and nothing is left. -/
theorem loadRawString_cut {body p : Bytes} (hlt : body.length < 2 ^ 32 - 1)
    (hp : p <+: lenBytes body.length ++ body) (hne : p ≠ lenBytes body.length ++ body) :
    loadRawString p = (none, []) := by
  rcases prefix_append_cases hp with ⟨h1, h2⟩ | ⟨q, rfl, hq⟩
  · rw [loadRawString, loadLen_cut h1 h2]
    simp
  · have hqlt : q.length < body.length :=
      Nat.lt_of_le_of_ne hq.length_le fun heq => hne (by rw [hq.eq_of_length heq])
    obtain ⟨hnat, hlen⟩ := ofNat_length hlt
    rw [loadRawString, loadLen_lenBytes]
    simp only [if_neg hlen, hnat]
    exact fileRead_short hqlt

/-- Reading never makes a file longer. -/
theorem fileRead_length_le (n : ℕ) (f : Bytes) : (fileRead n f).2.length ≤ f.length := by
  unfold fileRead
  split
  · exact Nat.le_refl _
  · split
    · exact Nat.zero_le _
    · rw [List.length_drop]; omega

theorem loadLen_length_le (f : Bytes) : (loadLen f).2.length ≤ f.length := by
  have h1 := fileRead_length_le 1 f
  unfold loadLen
  cases hr : fileRead 1 f with
  | mk buf f1 =>
      rw [hr] at h1
      have h2 := fileRead_length_le 1 f1
      have h3 := fileRead_length_le 4 f1
      cases buf with
      | none => exact h1
      | some buf =>
          simp only
          split
          · exact h1
          · split
            · cases hr2 : fileRead 1 f1 with
              | mk buf2 f2 => rw [hr2] at h2; cases buf2 <;> exact Nat.le_trans h2 h1
            · split
              · cases hr3 : fileRead 4 f1 with
                | mk buf3 f3 => rw [hr3] at h3; cases buf3 <;> exact Nat.le_trans h3 h1
              · exact h1

theorem loadRawString_length_le (f : Bytes) : (loadRawString f).2.length ≤ f.length := by
  have h1 := loadLen_length_le f
  unfold loadRawString
  cases hl : loadLen f with
  | mk len f1 =>
      rw [hl] at h1
      simp only
      split
      · exact h1
      · exact Nat.le_trans (fileRead_length_le _ _) h1

/-- A round of the loader that finds a type byte. -/
theorem loadType_cons (b : UInt8) (f : Bytes) : loadType (b :: f) = (some b, f) := by
  rw [loadType, fileRead_one]
  rfl

/-! ## Writing -/

/-- The `n` calls from `k` on all succeed. -/
def AllOk (io : ℕ → WriteRet) (k n : ℕ) : Prop := ∀ j, k ≤ j → j < k + n → io j = .ok

theorem allOk_add {io : ℕ → WriteRet} {k m n : ℕ} :
    AllOk io k (m + n) ↔ AllOk io k m ∧ AllOk io (k + m) n := by
  constructor
  · intro h
    exact ⟨fun j h1 h2 => h j h1 (by omega), fun j h1 h2 => h j (by omega) (by omega)⟩
  · rintro ⟨h1, h2⟩ j h3 h4
    rcases Nat.lt_or_ge j (k + m) with h | h
    · exact h1 j h3 h
    · exact h2 j h (by omega)

theorem allOk_one {io : ℕ → WriteRet} {k : ℕ} : AllOk io k 1 ↔ io k = .ok :=
  ⟨fun h => h k (Nat.le_refl k) (Nat.lt_succ_self k), fun h j h1 h2 => by
    obtain rfl : j = k := by omega
    exact h⟩

/-- What storing `buf` in `n` calls does: all of it is stored when they all succeed, and
a proper prefix of it otherwise. -/
inductive Outcome (io : ℕ → WriteRet) (n : ℕ) (buf : Bytes) (w w' : Writer) : Bool → Prop where
  | stored : AllOk io w.calls n → w'.content = w.content ++ buf → w'.calls = w.calls + n →
      Outcome io n buf w w' true
  | failed (part : Bytes) : ¬ AllOk io w.calls n → part <+: buf → part ≠ buf →
      w'.content = w.content ++ part → Outcome io n buf w w' false

variable {io : ℕ → WriteRet} {m n : ℕ} {buf buf' : Bytes} {w w' w'' : Writer} {b : Bool}

/-- A failed piece is a failed whole. -/
theorem Outcome.fail_left (h : Outcome io m buf w w' false) (n : ℕ) (buf' : Bytes) :
    Outcome io (m + n) (buf ++ buf') w w' false := by
  cases h with
  | failed part hio hpre hne hc =>
      refine .failed part (fun hall => hio (allOk_add.mp hall).1)
        (hpre.trans (List.prefix_append buf buf')) (fun heq => hne ?_) hc
      have h1 := hpre.length_le
      have h2 := congrArg List.length heq
      rw [List.length_append] at h2
      exact hpre.eq_of_length (by omega)

/-- Two pieces, the first of them stored. -/
theorem Outcome.seq (h : Outcome io m buf w w' true) (h' : Outcome io n buf' w' w'' b) :
    Outcome io (m + n) (buf ++ buf') w w'' b := by
  cases h with
  | stored hio hc hcalls =>
      cases h' with
      | stored hio' hc' hcalls' =>
          exact .stored (allOk_add.mpr ⟨hio, hcalls ▸ hio'⟩)
            (by rw [hc', hc, List.append_assoc]) (by rw [hcalls', hcalls, Nat.add_assoc])
      | failed part hio' hpre hne hc' =>
          exact .failed (buf ++ part) (fun hall => hio' (hcalls ▸ (allOk_add.mp hall).2))
            ((List.prefix_append_right_inj buf).mpr hpre)
            (fun heq => hne (List.append_cancel_left heq)) (by rw [hc', hc, List.append_assoc])

/-- `FileWrite` of a buffer that is not empty. -/
theorem fileWrite_spec (io : ℕ → WriteRet) (hb : buf ≠ []) (w : Writer) :
    ∃ w', (fileWrite io buf w = (1, w') ∧ Outcome io 1 buf w w' true) ∨
      (fileWrite io buf w = (0, w') ∧ Outcome io 1 buf w w' false) := by
  have hlen : buf.length ≠ 0 := fun h => hb (List.eq_nil_of_length_eq_zero h)
  cases hio : io w.calls with
  | ok =>
      exact ⟨⟨w.content ++ buf, w.calls + 1⟩, Or.inl ⟨by simp [fileWrite, hio, hb],
        .stored (allOk_one.mpr hio) rfl rfl⟩⟩
  | fail k =>
      refine ⟨_, Or.inr ⟨by rw [fileWrite, hio], .failed (buf.take (min k (buf.length - 1)))
        (fun h => ?_) (List.take_prefix _ _) (fun heq => ?_) rfl⟩⟩
      · rw [allOk_one.mp h] at hio
        cases hio
      · have := congrArg List.length heq
        rw [List.length_take] at this
        omega

/-- `SaveLen`. -/
theorem saveLen_spec (io : ℕ → WriteRet) {len : ℕ} (hlt : len < 2 ^ 32 - 1) (w : Writer) :
    ∃ w', (saveLen io (UInt32.ofNat len) w = (((lenBytes len).length : ℤ), w') ∧
        Outcome io (lenCalls len) (lenBytes len) w w' true) ∨
      (saveLen io (UInt32.ofNat len) w = (-1, w') ∧
        Outcome io (lenCalls len) (lenBytes len) w w' false) := by
  have h6 : UInt32.ofNat len < (1 : UInt32) <<< 6 ↔ len < 2 ^ 6 := by
    rw [UInt32.lt_iff_toNat_lt, (ofNat_length hlt).1]; rfl
  have h14 : UInt32.ofNat len < (1 : UInt32) <<< 14 ↔ len < 2 ^ 14 := by
    rw [UInt32.lt_iff_toNat_lt, (ofNat_length hlt).1]; rfl
  rw [saveLen, lenCalls, lenBytes]
  by_cases hs6 : len < 2 ^ 6
  · rw [if_pos (h6.mpr hs6), if_pos hs6, if_pos (by omega : len < 2 ^ 14), byte_len6]
    obtain ⟨w', ⟨hw, hout⟩ | ⟨hw, hout⟩⟩ :=
      fileWrite_spec io (show [UInt8.ofNat len] ≠ [] by simp) w
    · exact ⟨w', Or.inl ⟨by simp [hw], hout⟩⟩
    · exact ⟨w', Or.inr ⟨by simp [hw], hout⟩⟩
  · by_cases hs14 : len < 2 ^ 14
    · rw [if_neg (fun h => hs6 (h6.mp h)), if_pos (h14.mpr hs14), if_neg hs6, if_pos hs14,
        if_pos hs14, byte_len14_hi hs14, byte_len14_lo]
      obtain ⟨w', ⟨hw, hout⟩ | ⟨hw, hout⟩⟩ := fileWrite_spec io
        (show [UInt8.ofNat (len / 256 + 64), UInt8.ofNat (len % 256)] ≠ [] by simp) w
      · exact ⟨w', Or.inl ⟨by simp only [hw]; rfl, hout⟩⟩
      · exact ⟨w', Or.inr ⟨by simp only [hw]; rfl, hout⟩⟩
    · rw [if_neg (fun h => hs6 (h6.mp h)), if_neg (fun h => hs14 (h14.mp h)), if_neg hs6,
        if_neg hs14, if_neg hs14]
      have hbyte : (MsgLenType.bs32Bit <<< (6 : UInt32)).toUInt8 = 128 := rfl
      rw [hbyte]
      obtain ⟨w1, ⟨hw, hout⟩ | ⟨hw, hout⟩⟩ := fileWrite_spec io (show [128] ≠ [] by simp) w
      · obtain ⟨w2, ⟨hw2, hout2⟩ | ⟨hw2, hout2⟩⟩ := fileWrite_spec io
          (show htonl (UInt32.ofNat len) ≠ [] by simp [htonl]) w1
        · exact ⟨w2, Or.inl ⟨by simp only [hw, hw2]; rfl, hout.seq hout2⟩⟩
        · exact ⟨w2, Or.inr ⟨by simp [hw, hw2], hout.seq hout2⟩⟩
      · exact ⟨w1, Or.inr ⟨by simp [hw], hout.fail_left 1 _⟩⟩

/-- `SaveRawString` of a string that is not empty. -/
theorem saveRawString_spec (io : ℕ → WriteRet) {str : Bytes} (hs : str ≠ [])
    (hlt : str.length < 2 ^ 32 - 1) (w : Writer) :
    ∃ w', (saveRawString io str w = (((lenBytes str.length ++ str).length : ℤ), w') ∧
        Outcome io (lenCalls str.length + 1) (lenBytes str.length ++ str) w w' true) ∨
      (saveRawString io str w = (-1, w') ∧
        Outcome io (lenCalls str.length + 1) (lenBytes str.length ++ str) w w' false) := by
  have hpos : str.length > 0 := List.length_pos_iff.mpr hs
  have hlen := lenBytes_length_pos str.length
  rw [saveRawString, if_pos hpos]
  obtain ⟨w1, ⟨hw, hout⟩ | ⟨hw, hout⟩⟩ := saveLen_spec io hlt w
  · obtain ⟨w2, ⟨hw2, hout2⟩ | ⟨hw2, hout2⟩⟩ := fileWrite_spec io hs w1
    · refine ⟨w2, Or.inl ⟨?_, hout.seq hout2⟩⟩
      simp only [hw, hw2]
      rw [if_neg (by omega), if_neg (by omega), List.length_append, Int.natCast_add]
    · refine ⟨w2, Or.inr ⟨?_, hout.seq hout2⟩⟩
      simp only [hw, hw2]
      rw [if_neg (by omega), if_pos (by omega)]
  · exact ⟨w1, Or.inr ⟨by simp [hw], hout.fail_left 1 _⟩⟩

/-- The number of `FileWrite` calls a record with this body takes. -/
def saveCalls (body : Bytes) : ℕ := 1 + (lenCalls body.length + 1)

/-- The record is stored: its body is not empty and every `FileWrite` call for it
succeeds. -/
def Written (io : ℕ → WriteRet) (body : Bytes) : Prop := body ≠ [] ∧ AllOk io 0 (saveCalls body)

/-- The number of bytes of the record fits in an `int`. -/
def FitsInt (body : Bytes) : Prop := 1 + ((lenBytes body.length).length + body.length) < 2 ^ 31

instance (body : Bytes) : Decidable (FitsInt body) := inferInstanceAs (Decidable (_ < _))

/-- `SaveObj`: what it stores, and when its answer is not an error. -/
theorem saveObj_spec {M : Type} (c : Codec M) (io : ℕ → WriteRet) (obj : M) (type : MsgNodeType)
    (content : Bytes) :
    ∃ ret w' part, saveObj c io obj type ⟨content, 0⟩ = (ret, w') ∧
      w'.content = content ++ part ∧ part <+: record type (c.serializeAsString obj) ∧
      (part = record type (c.serializeAsString obj) ↔ Written io (c.serializeAsString obj)) ∧
      (0 ≤ ret ↔ Written io (c.serializeAsString obj) ∧ FitsInt (c.serializeAsString obj)) := by
  have hlt := c.size_lt obj
  generalize hbody : c.serializeAsString obj = body at hlt
  have hrec : record type body = [type.toByte] ++ (lenBytes body.length ++ body) := rfl
  -- an error is answered, and the record is not complete
  have herr : ∀ (w' : Writer) (part : Bytes), w'.content = content ++ part →
      part <+: record type body → part ≠ record type body → ¬ Written io body →
      saveObj c io obj type ⟨content, 0⟩ = (-1, w') →
      ∃ ret w' part, saveObj c io obj type ⟨content, 0⟩ = (ret, w') ∧
        w'.content = content ++ part ∧ part <+: record type body ∧
        (part = record type body ↔ Written io body) ∧
        (0 ≤ ret ↔ Written io body ∧ FitsInt body) :=
    fun w' part hc hpre hne hnot hrun => ⟨-1, w', part, hrun, hc, hpre,
      ⟨fun h => absurd h hne, fun h => absurd h hnot⟩,
      ⟨fun h => by omega, fun h => absurd h.1 hnot⟩⟩
  obtain ⟨w1, ⟨hw, hout⟩ | ⟨hw, hout⟩⟩ := fileWrite_spec io (show [type.toByte] ≠ [] by simp)
    ⟨content, 0⟩
  · by_cases hnil : body = []
    · -- only the type byte is stored
      cases hout with
      | stored _ hc _ =>
          refine herr w1 [type.toByte] hc (hrec ▸ List.prefix_append _ _) (fun h => ?_)
            (fun h => h.1 hnil) ?_
          · have := congrArg List.length h
            have hpos := lenBytes_length_pos body.length
            rw [hrec] at this
            simp only [List.length_append, List.length_singleton] at this
            omega
          · simp [saveObj, saveType, hw, hbody, hnil, saveRawString]
    · obtain ⟨w2, ⟨hw2, hout2⟩ | ⟨hw2, hout2⟩⟩ :=
        saveRawString_spec io hnil (Nat.lt_trans hlt (by decide)) w1
      · cases hout.seq hout2 with
        | stored hio hc _ =>
            have hwritten : Written io body := ⟨hnil, hio⟩
            have hpos := lenBytes_length_pos body.length
            refine ⟨toInt (1 + ((lenBytes body.length ++ body).length : ℤ)), w2, record type body,
              ?_, hc, List.prefix_refl _, ⟨fun _ => hwritten, fun _ => rfl⟩, ?_⟩
            · simp only [saveObj, saveType, hw, hbody, hw2]
              rw [if_neg (by decide), if_neg (by rw [List.length_append]; omega)]
              rfl
            · have hle : (lenBytes body.length).length ≤ 5 := by
                unfold lenBytes; split
                · simp
                · split <;> simp [htonl]
              simp only [hwritten, true_and, FitsInt, toInt, List.length_append, Int.bmod]
              split <;> omega
      · cases hout.seq hout2 with
        | failed part hio hpre hne hc =>
            refine herr w2 part hc hpre hne (fun h => hio h.2) ?_
            simp [saveObj, saveType, hw, hbody, hw2]
  · cases hout.fail_left (lenCalls body.length + 1) (lenBytes body.length ++ body) with
    | failed part hio hpre hne hc =>
        refine herr w1 part hc hpre hne (fun h => hio h.2) ?_
        simp [saveObj, saveType, hw]

end LibC
