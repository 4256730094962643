import Mathlib
import ClassPatch.Text.Utf8

/-!
# The order of texts is that of their bytes

Characters of more bytes have greater lead bytes, and characters of equally many bytes differ first
in the digits that count most. So two different characters are told apart by their own bytes,
whatever comes after them, and texts that are ordered by their characters are ordered by their UTF-8
bytes.
-/

namespace ClassPatch.Text.Utf8

/-- Where the first bytes are equal, the bytes after them decide. -/
theorem ofNat_cons_lt {m n : Nat} {us vs : List UInt8} (hm : m < 256) (hn : n < 256) (hle : m ≤ n)
    (hrest : m = n → us < vs) : UInt8.ofNat m :: us < UInt8.ofNat n :: vs := by
  rw [List.cons_lt_cons_iff]
  rcases Nat.lt_or_eq_of_le hle with hlt | heq
  · left
    rw [UInt8.lt_iff_toNat_lt, UInt8.toNat_ofNat_of_lt' hm, UInt8.toNat_ofNat_of_lt' hn]
    exact hlt
  · right
    exact ⟨congrArg UInt8.ofNat heq, hrest heq⟩

theorem encodeChar_append_lt {c d : Char} (h : c < d) (us vs : List UInt8) :
    encodeChar c ++ us < encodeChar d ++ vs := by
  have hlt : c.toNat < d.toNat := h
  have hbound : d.toNat < 0x110000 := by
    have hvalid := d.valid
    simp only [UInt32.isValidChar, Nat.isValidChar] at hvalid
    show d.val.toNat < _
    omega
  unfold encodeChar
  generalize c.toNat = m at hlt
  generalize d.toNat = n at hlt hbound
  dsimp only
  split_ifs <;> try omega
  all_goals simp only [List.cons_append, List.nil_append]
  all_goals refine ofNat_cons_lt (by omega) (by omega) (by omega) fun hlead => ?_
  -- equal lead bytes are left only where there are equally many bytes, of which one differs
  all_goals try omega
  · exact ofNat_cons_lt (by omega) (by omega) (by omega) fun heq => by omega
  · refine ofNat_cons_lt (by omega) (by omega) (by omega) fun hhigh => ?_
    exact ofNat_cons_lt (by omega) (by omega) (by omega) fun heq => by omega
  · refine ofNat_cons_lt (by omega) (by omega) (by omega) fun hhigh => ?_
    refine ofNat_cons_lt (by omega) (by omega) (by omega) fun hmiddle => ?_
    exact ofNat_cons_lt (by omega) (by omega) (by omega) fun heq => by omega

theorem encodeChar_ne_nil (c : Char) : encodeChar c ≠ [] := by
  unfold encodeChar
  dsimp only
  split_ifs <;> simp

/-- The bytes of a text are before those of another one if the text is before the other. -/
theorem encode_lt_encode {a b : String} (h : a < b) : encode a < encode b := by
  rw [String.lt_iff_toList_lt] at h
  unfold encode
  generalize a.toList = cs at h
  generalize b.toList = ds at h
  induction cs generalizing ds with
  | nil =>
    cases ds with
    | nil => exact absurd h (List.not_lt_nil [])
    | cons d ds =>
      rw [List.flatMap_nil, List.flatMap_cons]
      cases hd : encodeChar d with
      | nil => exact absurd hd (encodeChar_ne_nil d)
      | cons b bs => exact List.nil_lt_cons b _
  | cons c cs ih =>
    cases ds with
    | nil => exact absurd h (List.not_lt_nil _)
    | cons d ds =>
      rw [List.flatMap_cons, List.flatMap_cons]
      rcases List.cons_lt_cons_iff.mp h with hlt | ⟨rfl, hrest⟩
      · exact encodeChar_append_lt hlt _ _
      · exact List.append_left_lt (ih ds hrest)

end ClassPatch.Text.Utf8
