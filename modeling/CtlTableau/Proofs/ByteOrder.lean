import CtlTableau.OrderedSet
import Mathlib.Data.String.Basic

/-!
# The order of names

Sets of names are kept in the order of characters, which is the order of the bytes that names are
written with (`compare_isLE_iff_bytes`): a greater character has a greater first byte that differs.
-/

namespace CtlTableau

/-- The bytes of a text are those of its characters. -/
theorem toUTF8_toList (s : String) :
    s.toUTF8.data.toList = s.toList.flatMap String.utf8EncodeChar := by
  have h : s.toList.utf8Encode = s.toUTF8 := String.utf8Encode_toList
  rw [← h, List.utf8Encode, List.data_toByteArray]

/-- The first byte that differs decides. -/
theorem ofNat_cons_lt {m n : Nat} {k k' : List UInt8} (hm : m < 256) (hn : n < 256)
    (h : m < n ∨ m = n ∧ k < k') : UInt8.ofNat m :: k < UInt8.ofNat n :: k' := by
  rw [List.cons_lt_cons_iff, UInt8.lt_iff_toNat_lt, UInt8.toNat_ofNat_of_lt' hm,
    UInt8.toNat_ofNat_of_lt' hn]
  exact h.imp id fun h => ⟨congrArg UInt8.ofNat h.1, h.2⟩

/-- The bytes of a character are before those of a greater one, whatever follows. -/
theorem utf8EncodeChar_lt {c d : Char} (h : c < d) (l l' : List UInt8) :
    String.utf8EncodeChar c ++ l < String.utf8EncodeChar d ++ l' := by
  have hlt : c.val.toNat < d.val.toNat := h
  have hd : d.val.toNat < 1114112 := by
    rcases d.valid with h | h
    · exact Nat.lt_trans h (by decide)
    · exact h.2
  simp only [String.utf8EncodeChar]
  generalize c.val.toNat = v at hlt
  generalize d.val.toNat = w at hlt hd
  split
  · split
    · exact ofNat_cons_lt (by omega) (by omega) (by omega)
    · split
      · exact ofNat_cons_lt (by omega) (by omega) (by omega)
      · split <;> exact ofNat_cons_lt (by omega) (by omega) (by omega)
  · rw [if_neg (show ¬ w ≤ 127 by omega)]
    split
    · split
      · refine ofNat_cons_lt (by omega) (by omega) ?_
        rcases Nat.lt_or_ge (v / 64) (w / 64) with h | h
        · exact Or.inl (by omega)
        · exact Or.inr ⟨by omega, ofNat_cons_lt (by omega) (by omega) (by omega)⟩
      · split <;> exact ofNat_cons_lt (by omega) (by omega) (by omega)
    · rw [if_neg (show ¬ w ≤ 2047 by omega)]
      split
      · split
        · refine ofNat_cons_lt (by omega) (by omega) ?_
          rcases Nat.lt_or_ge (v / 4096) (w / 4096) with h | h
          · exact Or.inl (by omega)
          · refine Or.inr ⟨by omega, ofNat_cons_lt (by omega) (by omega) ?_⟩
            rcases Nat.lt_or_ge (v / 64) (w / 64) with h | h
            · exact Or.inl (by omega)
            · exact Or.inr ⟨by omega, ofNat_cons_lt (by omega) (by omega) (by omega)⟩
        · exact ofNat_cons_lt (by omega) (by omega) (by omega)
      · rw [if_neg (show ¬ w ≤ 65535 by omega)]
        refine ofNat_cons_lt (by omega) (by omega) ?_
        rcases Nat.lt_or_ge (v / 262144) (w / 262144) with h | h
        · exact Or.inl (by omega)
        · refine Or.inr ⟨by omega, ofNat_cons_lt (by omega) (by omega) ?_⟩
          rcases Nat.lt_or_ge (v / 4096) (w / 4096) with h | h
          · exact Or.inl (by omega)
          · refine Or.inr ⟨by omega, ofNat_cons_lt (by omega) (by omega) ?_⟩
            rcases Nat.lt_or_ge (v / 64) (w / 64) with h | h
            · exact Or.inl (by omega)
            · exact Or.inr ⟨by omega, ofNat_cons_lt (by omega) (by omega) (by omega)⟩

/-- The bytes of a text are before those of a greater one. -/
theorem flatMap_utf8EncodeChar_lt {l l' : List Char} (h : l < l') :
    l.flatMap String.utf8EncodeChar < l'.flatMap String.utf8EncodeChar := by
  induction l generalizing l' with
  | nil =>
    cases l' with
    | nil => exact absurd h (List.lt_irrefl _)
    | cons d l' =>
      cases hb : String.utf8EncodeChar d with
      | nil => exact absurd hb String.utf8EncodeChar_ne_nil
      | cons b bs =>
        rw [List.flatMap_cons, hb]
        exact List.nil_lt_cons b _
  | cons c l ih =>
    cases l' with
    | nil => exact absurd h (List.not_lt_nil _)
    | cons d l' =>
      rcases List.cons_lt_cons_iff.1 h with hlt | ⟨rfl, hlt⟩
      · exact utf8EncodeChar_lt hlt _ _
      · exact List.append_left_lt (ih hlt)

/-- **Names are in the order of their bytes.** -/
theorem compare_isLE_iff_bytes (x y : String) :
    (compare x y).isLE = true ↔ x.toUTF8.data.toList ≤ y.toUTF8.data.toList := by
  have bytes : ∀ {x y : String}, x < y → x.toUTF8.data.toList < y.toUTF8.data.toList := by
    intro x y h
    rw [toUTF8_toList, toUTF8_toList]
    exact flatMap_utf8EncodeChar_lt (String.lt_iff_toList_lt.1 h)
  have order : (compare x y).isLE = true ↔ ¬ y < x := by
    show (compareOfLessAndEq x y).isLE = true ↔ ¬ y < x
    unfold compareOfLessAndEq
    split
    · next h => exact iff_of_true rfl (Std.not_gt_of_lt h)
    · next h =>
      split
      · next e => exact iff_of_true rfl (e ▸ h)
      · next ne =>
        exact iff_of_false Bool.false_ne_true fun h' =>
          ne (((Std.lt_trichotomy x y).resolve_left h).resolve_right h')
  rw [order, ← Std.not_lt]
  refine not_congr ⟨bytes, fun h => ?_⟩
  rcases Std.lt_trichotomy y x with h' | rfl | h'
  · exact h'
  · exact absurd h (List.lt_irrefl _)
  · exact absurd h (Std.not_gt_of_lt (bytes h'))

end CtlTableau
