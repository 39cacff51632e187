import Mathlib.Data.Nat.Digits.Defs

/-! Numbers as sequences of bytes. -/

/-- The number with the first byte lowest. -/
def littleEndian (bytes : List (BitVec 8)) : Nat :=
  Nat.ofDigits 256 (bytes.map BitVec.toNat)

/-- The number with the first byte highest. -/
def bigEndian (bytes : List (BitVec 8)) : Nat := littleEndian bytes.reverse

@[simp] theorem littleEndian_nil : littleEndian [] = 0 := rfl

@[simp] theorem littleEndian_cons (byte : BitVec 8) (bytes : List (BitVec 8)) :
    littleEndian (byte :: bytes) =
      byte.toNat + 256 * littleEndian bytes := by
  simp [littleEndian, Nat.ofDigits_cons]

theorem littleEndian_append (low high : List (BitVec 8)) :
    littleEndian (low ++ high) =
      littleEndian low + 256 ^ low.length * littleEndian high := by
  simp [littleEndian, Nat.ofDigits_append]

theorem bigEndian_append (high low : List (BitVec 8)) :
    bigEndian (high ++ low) =
      bigEndian low + 256 ^ low.length * bigEndian high := by
  simp [bigEndian, littleEndian_append]

theorem digit_lt {bytes : List (BitVec 8)} {digit : Nat}
    (h : digit ∈ bytes.map BitVec.toNat) : digit < 256 := by
  obtain ⟨byte, -, rfl⟩ := List.mem_map.mp h
  exact byte.isLt

theorem littleEndian_lt (bytes : List (BitVec 8)) :
    littleEndian bytes < 256 ^ bytes.length := by
  have h := Nat.ofDigits_lt_base_pow_length (by decide : 1 < 256)
    (fun digit (h : digit ∈ bytes.map BitVec.toNat) => digit_lt h)
  simpa [littleEndian] using h

theorem bigEndian_lt (bytes : List (BitVec 8)) :
    bigEndian bytes < 256 ^ bytes.length := by
  simpa [bigEndian] using littleEndian_lt bytes.reverse

theorem littleEndian_inj {a b : List (BitVec 8)} (hlength : a.length = b.length)
    (h : littleEndian a = littleEndian b) : a = b := by
  have hmap : a.map BitVec.toNat = b.map BitVec.toNat :=
    Nat.ofDigits_inj_of_len_eq (by decide) (by simpa using hlength)
      (fun digit => digit_lt) (fun digit => digit_lt) h
  exact List.map_inj_right (fun _ _ => BitVec.eq_of_toNat_eq) |>.mp hmap

theorem bigEndian_inj {a b : List (BitVec 8)} (hlength : a.length = b.length)
    (h : bigEndian a = bigEndian b) : a = b :=
  List.reverse_inj.mp (littleEndian_inj (by simpa using hlength) h)

/-- Rows of the same lengths are told apart by their concatenation. -/
theorem rows_inj {α : Type} {width : Nat} {rows rows' : List (List α)}
    (hcount : rows.length = rows'.length)
    (hrows : ∀ row ∈ rows, row.length = width)
    (hrows' : ∀ row ∈ rows', row.length = width)
    (h : rows.flatten = rows'.flatten) : rows = rows' := by
  refine List.eq_iff_flatten_eq.mpr ⟨h, ?_⟩
  rw [List.map_eq_replicate_iff.mpr hrows, List.map_eq_replicate_iff.mpr hrows',
    hcount]
