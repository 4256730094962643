import Mathlib
import ClassPatch.Text.Utf16

/-!
# UTF-16 — decoding inverts encoding

Strict decoding accepts exactly the units that encoding writes: every unit sequence
without unpaired surrogates has one text, and every text one unit sequence.
-/

namespace ClassPatch.Text.Utf16

theorem isHigh_iff {u : UInt16} : isHigh u = true ↔ 0xD800 ≤ u.toNat ∧ u.toNat < 0xDC00 := by
  simp [isHigh, UInt16.le_iff_toNat_le, UInt16.lt_iff_toNat_lt]

theorem isLow_iff {u : UInt16} : isLow u = true ↔ 0xDC00 ≤ u.toNat ∧ u.toNat < 0xE000 := by
  simp [isLow, UInt16.le_iff_toNat_le, UInt16.lt_iff_toNat_lt]

theorem toNat_ofNat_of_valid {n : Nat} (h : n.isValidChar) : (Char.ofNat n).toNat = n := by
  rw [Char.toNat_ofNat, if_pos h]

/-! ## One character -/

/-- A unit outside the surrogates is the code of a character by itself. -/
theorem encodeChar_ofNat {u : UInt16} (hhigh : isHigh u = false) (hlow : isLow u = false) :
    encodeChar (Char.ofNat u.toNat) = [u] := by
  have hlt := u.toNat_lt
  have hvalid : u.toNat.isValidChar := by
    rw [← Bool.not_eq_true, isHigh_iff] at hhigh
    rw [← Bool.not_eq_true, isLow_iff] at hlow
    unfold Nat.isValidChar
    omega
  simp [encodeChar, toNat_ofNat_of_valid hvalid, hlt]

/-- A surrogate pair is the code of the character that it stands for. -/
theorem encodeChar_ofPair {high low : UInt16} (hhigh : isHigh high) (hlow : isLow low) :
    encodeChar (ofPair high low) = [high, low] := by
  rw [isHigh_iff] at hhigh
  rw [isLow_iff] at hlow
  have hvalid : (0x10000 + (high.toNat - 0xD800) * 1024 + (low.toNat - 0xDC00)).isValidChar := by
    unfold Nat.isValidChar
    omega
  have hbig : ¬0x10000 + (high.toNat - 0xD800) * 1024 + (low.toNat - 0xDC00) < 0x10000 := by
    omega
  simp only [encodeChar, ofPair, toNat_ofNat_of_valid hvalid, if_neg hbig]
  have hfirst : 0xD800 + (0x10000 + (high.toNat - 0xD800) * 1024 + (low.toNat - 0xDC00)
      - 0x10000) / 1024 = high.toNat := by omega
  have hsecond : 0xDC00 + (0x10000 + (high.toNat - 0xD800) * 1024 + (low.toNat - 0xDC00)
      - 0x10000) % 1024 = low.toNat := by omega
  rw [hfirst, hsecond, UInt16.ofNat_toNat, UInt16.ofNat_toNat]

/-! ## Steps of a scan -/

theorem scan_pair {acc : List (Option Char)} {high low : UInt16} {rest : List UInt16}
    (hhigh : isHigh high) (hlow : isLow low) :
    scan acc (high :: low :: rest) = scan (some (ofPair high low) :: acc) rest := by
  rw [scan.eq_def]
  simp [hhigh, hlow]

theorem scan_single {acc : List (Option Char)} {unit : UInt16} {rest : List UInt16}
    (hhigh : isHigh unit = false) (hlow : isLow unit = false) :
    scan acc (unit :: rest) = scan (some (Char.ofNat unit.toNat) :: acc) rest := by
  rw [scan.eq_def]
  simp [hhigh, hlow]

/-- What scanning makes of the units of a character before any others. -/
theorem scan_encodeChar (acc : List (Option Char)) (c : Char) (rest : List UInt16) :
    scan acc (encodeChar c ++ rest) = scan (some c :: acc) rest := by
  have hvalid : c.toNat < 0xD800 ∨ 0xDFFF < c.toNat ∧ c.toNat < 0x110000 := c.valid
  have hchar : Char.ofNat c.toNat = c := Char.ofNat_toNat c
  unfold encodeChar
  by_cases hsmall : c.toNat < 0x10000
  · have hunit : (UInt16.ofNat c.toNat).toNat = c.toNat := UInt16.toNat_ofNat_of_lt' hsmall
    have hhigh : isHigh (UInt16.ofNat c.toNat) = false := by
      rw [← Bool.not_eq_true, isHigh_iff, hunit]
      omega
    have hlow : isLow (UInt16.ofNat c.toNat) = false := by
      rw [← Bool.not_eq_true, isLow_iff, hunit]
      omega
    rw [if_pos hsmall, List.singleton_append, scan_single hhigh hlow, hunit, hchar]
  · have hfirst : (UInt16.ofNat (0xD800 + (c.toNat - 0x10000) / 1024)).toNat
        = 0xD800 + (c.toNat - 0x10000) / 1024 :=
      UInt16.toNat_ofNat_of_lt' (show _ < 65536 by omega)
    have hsecond : (UInt16.ofNat (0xDC00 + (c.toNat - 0x10000) % 1024)).toNat
        = 0xDC00 + (c.toNat - 0x10000) % 1024 :=
      UInt16.toNat_ofNat_of_lt' (show _ < 65536 by omega)
    have hhigh : isHigh (UInt16.ofNat (0xD800 + (c.toNat - 0x10000) / 1024)) := by
      rw [isHigh_iff, hfirst]
      omega
    have hlow : isLow (UInt16.ofNat (0xDC00 + (c.toNat - 0x10000) % 1024)) := by
      rw [isLow_iff, hsecond]
      omega
    have hpair : 0x10000 + (0xD800 + (c.toNat - 0x10000) / 1024 - 0xD800) * 1024
        + (0xDC00 + (c.toNat - 0x10000) % 1024 - 0xDC00) = c.toNat := by omega
    rw [if_neg hsmall, List.cons_append, List.singleton_append, scan_pair hhigh hlow, ofPair,
      hfirst, hsecond, hpair, hchar]

/-- What was read before stands before what is read from here on. -/
theorem reverse_prefix_scan (acc : List (Option Char)) (units : List UInt16) :
    acc.reverse <+: scan acc units := by
  have hstep (x : Option Char) (acc : List (Option Char)) :
      acc.reverse <+: (x :: acc).reverse := by simp
  fun_induction scan acc units with
  | case1 => exact List.prefix_rfl
  | case2 acc unit hhigh ih => exact (hstep none acc).trans ih
  | case3 acc unit hhigh next rest hlow ih => exact (hstep _ acc).trans ih
  | case4 acc unit hhigh next rest hlow ih => exact (hstep none acc).trans ih
  | case5 acc unit rest hhigh hlow ih => exact (hstep none acc).trans ih
  | case6 acc unit rest hhigh hlow ih => exact (hstep _ acc).trans ih

/-- The last item read before a scan without unpaired surrogates is one of its characters. -/
theorem scan_cons_eq {x : Option Char} {acc : List (Option Char)} {units : List UInt16}
    {cs : List Char} (h : scan (x :: acc) units = acc.reverse ++ cs.map some) :
    ∃ c cs', x = some c ∧ cs = c :: cs' ∧
      scan (x :: acc) units = (x :: acc).reverse ++ cs'.map some := by
  have hprefix := reverse_prefix_scan (x :: acc) units
  rw [h, List.reverse_cons, List.prefix_append_right_inj] at hprefix
  cases cs with
  | nil => simp at hprefix
  | cons c cs' =>
    rw [List.map_cons, List.cons_prefix_cons] at hprefix
    refine ⟨c, cs', hprefix.1, rfl, ?_⟩
    rw [h, hprefix.1]
    simp

/-! ## Texts -/

theorem scan_encode (acc : List (Option Char)) (cs : List Char) :
    scan acc (cs.flatMap encodeChar) = acc.reverse ++ cs.map some := by
  induction cs generalizing acc with
  | nil => simp [scan]
  | cons c cs ih => rw [List.flatMap_cons, scan_encodeChar, ih]; simp

/-- A scan without unpaired surrogates has read the units of its characters. -/
theorem eq_encode_of_scan (acc : List (Option Char)) (units : List UInt16) (cs : List Char)
    (h : scan acc units = acc.reverse ++ cs.map some) : units = cs.flatMap encodeChar := by
  fun_induction scan acc units generalizing cs with
  | case1 acc =>
    cases cs with
    | nil => rfl
    | cons c cs => simp at h
  | case2 acc unit hhigh ih =>
    obtain ⟨c, cs', hc, -⟩ := scan_cons_eq h
    simp at hc
  | case3 acc unit hhigh next rest hlow ih =>
    obtain ⟨c, cs', hc, rfl, h'⟩ := scan_cons_eq h
    obtain rfl := Option.some.inj hc
    rw [List.flatMap_cons, encodeChar_ofPair hhigh hlow, ← ih cs' h']
    rfl
  | case4 acc unit hhigh next rest hlow ih =>
    obtain ⟨c, cs', hc, -⟩ := scan_cons_eq h
    simp at hc
  | case5 acc unit rest hhigh hlow ih =>
    obtain ⟨c, cs', hc, -⟩ := scan_cons_eq h
    simp at hc
  | case6 acc unit rest hhigh hlow ih =>
    obtain ⟨c, cs', hc, rfl, h'⟩ := scan_cons_eq h
    obtain rfl := Option.some.inj hc
    rw [List.flatMap_cons, encodeChar_ofNat (by simpa using hhigh) (by simpa using hlow),
      ← ih cs' h']
    rfl

theorem mapM_id_eq_some {items : List (Option Char)} {cs : List Char} :
    items.mapM id = some cs ↔ items = cs.map some := by
  induction items generalizing cs with
  | nil => cases cs <;> simp
  | cons item items ih =>
    cases item with
    | none => cases cs <;> simp
    | some c =>
      simp only [List.mapM_cons, id, Option.bind_eq_bind, Option.bind_some,
        Option.bind_eq_some_iff, ih, Option.pure_def, Option.some.injEq]
      constructor
      · rintro ⟨rest, rfl, rfl⟩
        rfl
      · intro h
        cases cs with
        | nil => simp at h
        | cons d ds =>
          simp only [List.map_cons, List.cons.injEq, Option.some.injEq] at h
          exact ⟨ds, h.2, by rw [h.1]⟩

theorem decode?_eq_some_iff {units : List UInt16} {text : String} :
    decode? units = some text ↔ units = encode text := by
  simp only [decode?, Option.map_eq_some_iff, mapM_id_eq_some]
  constructor
  · rintro ⟨cs, hscan, rfl⟩
    rw [encode, String.toList_ofList]
    exact eq_encode_of_scan [] units cs hscan
  · rintro rfl
    exact ⟨text.toList, scan_encode [] text.toList, String.ofList_toList⟩

end ClassPatch.Text.Utf16
