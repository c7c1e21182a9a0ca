/-
LibC.Lib.Bytes — byte strings and numbers in network byte order.

`htonl` and `htons` give the bytes of a number, the most significant one first;
`ntohl` and `ntohs` read a number from the beginning of a byte string, and
ignore what follows (`ntohl_htonl_append`, `ntohs_htons_append`).

`xorWords` is the checksum of the bytes as words of 16 bits.

`cut_flatten`: a beginning of a concatenation of strings is some whole strings
and a proper beginning of the next one.

No `sorry`, no `axiom`, no `native_decide`.
-/
import Mathlib.Data.List.Basic
import Mathlib.Data.List.Infix

namespace LibC.Lib

/-- A byte string. -/
abbrev Bytes := List UInt8

/-! ## Byte order -/

/-- The bytes of a 32-bit number. -/
def htonl (n : UInt32) : Bytes :=
  [(n >>> 24).toUInt8, (n >>> 16).toUInt8, (n >>> 8).toUInt8, n.toUInt8]

/-- The 32-bit number at the beginning of some bytes. -/
def ntohl (buf : Bytes) : UInt32 :=
  ((buf.getD 0 0).toUInt32 <<< 24) + ((buf.getD 1 0).toUInt32 <<< 16) +
    ((buf.getD 2 0).toUInt32 <<< 8) + (buf.getD 3 0).toUInt32

/-- The bytes of a 16-bit number. -/
def htons (n : UInt16) : Bytes := [(n >>> 8).toUInt8, n.toUInt8]

/-- The 16-bit number at the beginning of some bytes. -/
def ntohs (buf : Bytes) : UInt16 := ((buf.getD 0 0).toUInt16 <<< 8) + (buf.getD 1 0).toUInt16

@[simp] theorem length_htonl (n : UInt32) : (htonl n).length = 4 := rfl

@[simp] theorem length_htons (n : UInt16) : (htons n).length = 2 := rfl

/-- `ntohl` undoes `htonl`, whatever follows. -/
theorem ntohl_htonl_append (n : UInt32) (rest : Bytes) : ntohl (htonl n ++ rest) = n := by
  apply UInt32.toNat_inj.mp
  have hlt := n.toNat_lt
  simp only [ntohl, htonl, List.cons_append, List.nil_append, List.getD_cons_zero,
    List.getD_cons_succ, UInt32.toNat_add, UInt32.toNat_shiftLeft, UInt8.toNat_toUInt32,
    UInt32.toNat_toUInt8, UInt32.toNat_shiftRight, Nat.shiftLeft_eq, Nat.shiftRight_eq_div_pow,
    UInt32.reduceToNat, Nat.reduceMod, Nat.reducePow]
  omega

theorem ntohl_htonl (n : UInt32) : ntohl (htonl n) = n := ntohl_htonl_append n []

/-- Four bytes decide. -/
theorem ntohl_append {buf : Bytes} (h : 4 ≤ buf.length) (rest : Bytes) :
    ntohl (buf ++ rest) = ntohl buf := by
  have hget : ∀ i, i < 4 → (buf ++ rest).getD i 0 = buf.getD i 0 := by
    intro i hi
    rw [List.getD_eq_getElem?_getD, List.getD_eq_getElem?_getD,
      List.getElem?_append_left (by omega)]
  simp only [ntohl, hget 0 (by decide), hget 1 (by decide), hget 2 (by decide), hget 3 (by decide)]

/-- The last one of the four bytes is a lower bound. -/
theorem le_ntohl (buf : Bytes) : (buf.getD 3 0).toNat ≤ (ntohl buf).toNat := by
  have h0 := (buf.getD 0 0).toNat_lt
  have h1 := (buf.getD 1 0).toNat_lt
  have h2 := (buf.getD 2 0).toNat_lt
  have h3 := (buf.getD 3 0).toNat_lt
  simp only [ntohl, UInt32.toNat_add, UInt32.toNat_shiftLeft, UInt8.toNat_toUInt32,
    UInt32.reduceToNat, Nat.reduceMod, Nat.shiftLeft_eq]
  omega

/-- `ntohs` undoes `htons`, whatever follows. -/
theorem ntohs_htons_append (n : UInt16) (rest : Bytes) : ntohs (htons n ++ rest) = n := by
  apply UInt16.toNat_inj.mp
  have hlt := n.toNat_lt
  simp only [ntohs, htons, List.cons_append, List.nil_append, List.getD_cons_zero,
    List.getD_cons_succ, UInt16.toNat_add, UInt16.toNat_shiftLeft, UInt8.toNat_toUInt16,
    UInt16.toNat_toUInt8, UInt16.toNat_shiftRight, Nat.shiftLeft_eq, Nat.shiftRight_eq_div_pow,
    UInt16.reduceToNat, Nat.reduceMod, Nat.reducePow]
  omega

/-! ## Words -/

/-- A 16-bit word of a little-endian host. -/
def word (lo hi : UInt8) : UInt16 := lo.toUInt16 + (hi.toUInt16 <<< 8)

/-- The exclusive or of the words of some bytes; a byte that is left over does not count. -/
def xorWords : Bytes → UInt16
  | lo :: hi :: data => word lo hi ^^^ xorWords data
  | _ => 0

theorem word_eq_zero_iff {lo hi : UInt8} : word lo hi = 0 ↔ lo = 0 ∧ hi = 0 := by
  have hlo := lo.toNat_lt
  have hhi := hi.toNat_lt
  have hnat : (word lo hi).toNat = lo.toNat + 256 * hi.toNat := by
    simp only [word, UInt16.toNat_add, UInt16.toNat_shiftLeft, UInt8.toNat_toUInt16,
      UInt16.reduceToNat, Nat.reduceMod, Nat.shiftLeft_eq]
    omega
  rw [← UInt16.toNat_inj, ← UInt8.toNat_inj, ← UInt8.toNat_inj, hnat, UInt16.toNat_zero,
    UInt8.toNat_zero]
  omega

/-! ## Concatenations -/

section Flatten

variable {β : Type}

/-- A prefix of `A ++ B` ends inside `A`, or goes on into `B`. -/
theorem prefix_append_cases {p A B : List β} (h : p <+: A ++ B) :
    (p <+: A ∧ p ≠ A) ∨ ∃ q, p = A ++ q ∧ q <+: B := by
  rcases Nat.lt_or_ge p.length A.length with hlt | hge
  · exact Or.inl ⟨List.prefix_of_prefix_length_le h (List.prefix_append A B) (Nat.le_of_lt hlt),
      fun heq => by rw [heq] at hlt; omega⟩
  · obtain ⟨q, rfl⟩ := List.prefix_of_prefix_length_le (List.prefix_append A B) h hge
    exact Or.inr ⟨q, rfl, (List.prefix_append_right_inj A).mp h⟩

/-- `p` is nothing, or a proper beginning of the first of the strings. -/
def Pending (fs : List (List β)) (p : List β) : Prop :=
  p = [] ∨ ∃ f, fs.head? = some f ∧ p <+: f ∧ p ≠ f

/-- What is pending is shorter than a bound for the strings. -/
theorem Pending.length_lt {fs : List (List β)} {p : List β} (h : Pending fs p) {n : ℕ} (hn : 0 < n)
    (hle : ∀ f ∈ fs, f.length ≤ n) : p.length < n := by
  rcases h with rfl | ⟨f, hf, hpre, hne⟩
  · exact hn
  · have hlt := Nat.lt_of_le_of_ne hpre.length_le fun heq => hne (hpre.eq_of_length heq)
    have := hle f (List.mem_of_head? hf)
    omega

/-- When everything there is is pending, no string is left. -/
theorem Pending.eq_nil {fs : List (List β)} {p : List β} (h : Pending fs p) (hp : p = fs.flatten)
    (hne : ∀ f ∈ fs, f ≠ []) : fs = [] := by
  cases fs with
  | nil => rfl
  | cons f fs =>
      have hf := List.length_pos_iff.mpr (hne f (List.mem_cons_self ..))
      have hlen := congrArg List.length hp
      rw [List.flatten_cons, List.length_append] at hlen
      rcases h with rfl | ⟨f', hf', hpre, hne'⟩
      · rw [List.length_nil] at hlen
        omega
      · cases hf'
        have := Nat.lt_of_le_of_ne hpre.length_le fun heq => hne' (hpre.eq_of_length heq)
        omega

/-- A beginning of a concatenation is some whole strings and what is pending of the next
one. -/
theorem cut_flatten : ∀ (fs : List (List β)) (k : ℕ), k ≤ fs.flatten.length →
    ∃ j p, fs.flatten.take k = (fs.take j).flatten ++ p ∧ Pending (fs.drop j) p
  | [], k, _ => ⟨0, [], by simp, Or.inl rfl⟩
  | f :: fs, k, hk => by
      by_cases hlt : k < f.length
      · refine ⟨0, f.take k, ?_, Or.inr ⟨f, rfl, List.take_prefix _ _, fun heq => ?_⟩⟩
        · rw [List.flatten_cons, List.take_append_of_le_length (Nat.le_of_lt hlt)]
          rfl
        · have := congrArg List.length heq
          rw [List.length_take] at this
          omega
      · obtain ⟨j, p, htake, hp⟩ := cut_flatten fs (k - f.length) (by
          rw [List.flatten_cons, List.length_append] at hk; omega)
        refine ⟨j + 1, p, ?_, hp⟩
        rw [List.flatten_cons, List.take_append, List.take_of_length_le (by omega), htake,
          List.take_succ_cons, List.flatten_cons, List.append_assoc]

end Flatten

end LibC.Lib
