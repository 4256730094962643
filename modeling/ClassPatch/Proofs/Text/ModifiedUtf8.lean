import Mathlib
import ClassPatch.Proofs.Success
import ClassPatch.Proofs.Text.Utf16
import ClassPatch.Proofs.Text.Utf8
import ClassPatch.Text.ModifiedUtf8

/-!
# Modified UTF-8 — decoding inverts encoding

Every unit has one form of one to three bytes, and reading refuses all others: the
overlong forms, the zero byte and the four-byte forms. So a byte string decodes to a
text exactly if it is what the text is encoded as. Characters other than U+0000 that UTF-8
writes in up to three bytes have the same form in both encodings, so that the short ways
through UTF-8 give what going unit by unit gives.
-/

namespace ClassPatch.Text.ModifiedUtf8

/-! ## One unit -/

theorem continuation_eq_ok {pos : Nat} {data : List UInt8} {bits : Nat} :
    continuation pos data = .ok bits ↔
      ∃ b rest, data = b :: rest ∧ bits < 64 ∧ b.toNat = 0x80 + bits := by
  cases data with
  | nil => simp [continuation]
  | cons b rest =>
    simp only [continuation, UInt8.le_iff_toNat_le, UInt8.lt_iff_toNat_lt]
    split
    · rename_i h
      have h' : 128 ≤ b.toNat ∧ b.toNat < 192 := h
      simp only [Except.ok.injEq]
      constructor
      · rintro rfl
        exact ⟨b, rest, rfl, by omega, by omega⟩
      · rintro ⟨_, _, hcons, hlt, hb⟩
        cases hcons
        omega
    · rename_i h
      have h' : ¬(128 ≤ b.toNat ∧ b.toNat < 192) := h
      simp only [reduceCtorEq, false_iff, not_exists]
      rintro _ _ ⟨hcons, hlt, hb⟩
      cases hcons
      omega

theorem continuation_cons {pos bits : Nat} {b : UInt8} {rest : List UInt8} (hbits : bits < 64)
    (hb : b.toNat = 0x80 + bits) : continuation pos (b :: rest) = .ok bits :=
  continuation_eq_ok.mpr ⟨b, rest, rfl, hbits, hb⟩

theorem toNat_ofNat_lt {n : Nat} (h : n < 256) : (UInt8.ofNat n).toNat = n :=
  UInt8.toNat_ofNat_of_lt' h

/-- Reading a unit from its form before any other bytes. -/
theorem readUnit_encodeUnit (pos : Nat) (u : UInt16) (rest : List UInt8) :
    ∃ lead tail, encodeUnit u = lead :: tail ∧
      readUnit pos lead (tail ++ rest) = .ok (u.toNat, tail.length) := by
  have hu := u.toNat_lt
  simp only [encodeUnit]
  by_cases h1 : 0 < u.toNat ∧ u.toNat < 0x80
  · have hlead : (UInt8.ofNat u.toNat).toNat = u.toNat := toNat_ofNat_lt (by omega)
    refine ⟨_, _, by rw [if_pos h1], ?_⟩
    have hrange : (0 : UInt8) < UInt8.ofNat u.toNat ∧ UInt8.ofNat u.toNat < 0x80 := by
      rw [UInt8.lt_iff_toNat_lt, UInt8.lt_iff_toNat_lt, hlead]
      exact h1
    rw [readUnit, if_pos hrange, hlead]
    rfl
  · by_cases h2 : u.toNat < 0x800
    · have hlead : (UInt8.ofNat (0xC0 + u.toNat / 64)).toNat = 0xC0 + u.toNat / 64 :=
        toNat_ofNat_lt (by omega)
      have hsecond : (UInt8.ofNat (0x80 + u.toNat % 64)).toNat = 0x80 + u.toNat % 64 :=
        toNat_ofNat_lt (by omega)
      refine ⟨_, _, by rw [if_neg h1, if_pos h2], ?_⟩
      generalize UInt8.ofNat (0xC0 + u.toNat / 64) = lead at hlead ⊢
      have hone : ¬((0 : UInt8) < lead ∧ lead < 0x80) := by
        rw [UInt8.lt_iff_toNat_lt, UInt8.lt_iff_toNat_lt, hlead]
        simp
        omega
      have htwo : (0xC0 : UInt8) ≤ lead ∧ lead < 0xE0 := by
        rw [UInt8.le_iff_toNat_le, UInt8.lt_iff_toNat_lt, hlead]
        exact ⟨by simp, show _ < 224 by omega⟩
      rw [readUnit, if_neg hone, if_pos htwo, List.singleton_append,
        continuation_cons (by omega) hsecond]
      have hunit : lead.toNat % 32 * 64 + u.toNat % 64 = u.toNat := by omega
      simp only [bind, Except.bind, hunit, if_neg h1, List.length_singleton]
    · have hlead : (UInt8.ofNat (0xE0 + u.toNat / 4096)).toNat = 0xE0 + u.toNat / 4096 :=
        toNat_ofNat_lt (by omega)
      have hsecond : (UInt8.ofNat (0x80 + u.toNat / 64 % 64)).toNat = 0x80 + u.toNat / 64 % 64 :=
        toNat_ofNat_lt (by omega)
      have hthird : (UInt8.ofNat (0x80 + u.toNat % 64)).toNat = 0x80 + u.toNat % 64 :=
        toNat_ofNat_lt (by omega)
      refine ⟨_, _, by rw [if_neg h1, if_neg h2], ?_⟩
      generalize UInt8.ofNat (0xE0 + u.toNat / 4096) = lead at hlead ⊢
      have hone : ¬((0 : UInt8) < lead ∧ lead < 0x80) := by
        rw [UInt8.lt_iff_toNat_lt, UInt8.lt_iff_toNat_lt, hlead]
        simp
        omega
      have htwo : ¬((0xC0 : UInt8) ≤ lead ∧ lead < 0xE0) := by
        rw [UInt8.le_iff_toNat_le, UInt8.lt_iff_toNat_lt, hlead]
        simp
      have hthree : (0xE0 : UInt8) ≤ lead ∧ lead < 0xF0 := by
        rw [UInt8.le_iff_toNat_le, UInt8.lt_iff_toNat_lt, hlead]
        exact ⟨by simp, show _ < 240 by omega⟩
      rw [readUnit, if_neg hone, if_neg htwo, if_pos hthree]
      simp only [List.cons_append, List.nil_append, List.drop_succ_cons, List.drop_zero]
      rw [continuation_cons (by omega) hsecond, continuation_cons (by omega) hthird]
      have hunit : lead.toNat % 16 * 4096 + u.toNat / 64 % 64 * 64 + u.toNat % 64 = u.toNat := by
        omega
      simp only [bind, Except.bind, hunit, if_neg h2, List.length_cons, List.length_nil]

/-- A unit that is read was stored in its form. -/
theorem encodeUnit_of_readUnit {pos : Nat} {lead : UInt8} {data : List UInt8} {unit width : Nat}
    (h : readUnit pos lead data = .ok (unit, width)) :
    ∃ tail rest, data = tail ++ rest ∧ tail.length = width ∧
      encodeUnit (UInt16.ofNat unit) = lead :: tail := by
  have hb := lead.toNat_lt
  have hbyte {b : UInt8} {n : Nat} (hn : b.toNat = n) : UInt8.ofNat n = b := by
    rw [← hn, UInt8.ofNat_toNat]
  simp only [readUnit, UInt8.le_iff_toNat_le, UInt8.lt_iff_toNat_lt] at h
  split at h
  · rename_i h1
    have h1 : 0 < lead.toNat ∧ lead.toNat < 128 := h1
    cases h
    refine ⟨[], data, rfl, rfl, ?_⟩
    have hunit : (UInt16.ofNat lead.toNat).toNat = lead.toNat :=
      UInt16.toNat_ofNat_of_lt' (show _ < 65536 by omega)
    simp only [encodeUnit, hunit, if_pos h1, UInt8.ofNat_toNat]
  split at h
  · rename_i h2
    have h2 : 192 ≤ lead.toNat ∧ lead.toNat < 224 := h2
    simp only [Success.except_bind, continuation_eq_ok] at h
    obtain ⟨second, ⟨b, rest, rfl, hlt, hsecond⟩, h⟩ := h
    split at h
    · cases h
    rename_i hrange
    cases h
    refine ⟨[b], rest, rfl, rfl, ?_⟩
    have hunit : (UInt16.ofNat (lead.toNat % 32 * 64 + second)).toNat
        = lead.toNat % 32 * 64 + second :=
      UInt16.toNat_ofNat_of_lt' (show _ < 65536 by omega)
    simp only [encodeUnit, hunit, if_neg hrange,
      if_pos (show lead.toNat % 32 * 64 + second < 0x800 by omega)]
    rw [hbyte (b := lead) (by omega), hbyte (b := b) (by omega)]
  split at h
  · rename_i h3
    have h3 : 224 ≤ lead.toNat ∧ lead.toNat < 240 := h3
    simp only [Success.except_bind, continuation_eq_ok] at h
    obtain ⟨second, ⟨b, rest, rfl, hlt, hsecond⟩, third, ⟨b', rest', hrest, hlt', hthird⟩, h⟩ := h
    split at h
    · cases h
    rename_i hrange
    cases h
    refine ⟨[b, b'], rest', by simpa using hrest, rfl, ?_⟩
    have hunit : (UInt16.ofNat (lead.toNat % 16 * 4096 + second * 64 + third)).toNat
        = lead.toNat % 16 * 4096 + second * 64 + third :=
      UInt16.toNat_ofNat_of_lt' (show _ < 65536 by omega)
    simp only [encodeUnit, hunit, if_neg hrange,
      if_neg (show ¬(0 < lead.toNat % 16 * 4096 + second * 64 + third ∧
        lead.toNat % 16 * 4096 + second * 64 + third < 0x80) by omega)]
    rw [hbyte (b := lead) (by omega), hbyte (b := b) (by omega), hbyte (b := b') (by omega)]
  · cases h

/-! ## Strings of units -/

theorem unitsFrom_skip (pos : Nat) (acc : List UInt16) (tail rest : List UInt8) :
    unitsFrom pos tail.length acc (tail ++ rest)
      = unitsFrom (pos + tail.length) 0 acc rest := by
  induction tail generalizing pos with
  | nil => rfl
  | cons b tail ih =>
    rw [List.cons_append, List.length_cons, unitsFrom, ih]
    congr 1
    omega

theorem unitsFrom_flatMap (pos : Nat) (acc units : List UInt16) :
    unitsFrom pos 0 acc (units.flatMap encodeUnit) = .ok (acc.reverse ++ units) := by
  induction units generalizing pos acc with
  | nil => simp [unitsFrom]
  | cons u units ih =>
    obtain ⟨lead, tail, hform, hread⟩ :=
      readUnit_encodeUnit pos u (units.flatMap encodeUnit)
    rw [List.flatMap_cons, hform, List.cons_append, unitsFrom, hread]
    simp only [UInt16.ofNat_toNat]
    rw [unitsFrom_skip, ih]
    simp

theorem eq_flatMap_of_unitsFrom {pos : Nat} {acc units : List UInt16} {data : List UInt8}
    (h : unitsFrom pos 0 acc data = .ok units) :
    ∃ new, units = acc.reverse ++ new ∧ data = new.flatMap encodeUnit := by
  induction hlen : data.length using Nat.strongRecOn generalizing pos acc data with
  | ind n ih =>
    cases data with
    | nil =>
      simp only [unitsFrom, Except.ok.injEq] at h
      exact ⟨[], by simp [h], rfl⟩
    | cons lead data =>
      rw [unitsFrom] at h
      cases hread : readUnit pos lead data with
      | error e => simp [hread] at h
      | ok read =>
        obtain ⟨unit, width⟩ := read
        obtain ⟨tail, rest, rfl, rfl, hform⟩ := encodeUnit_of_readUnit hread
        simp only [hread] at h
        rw [unitsFrom_skip] at h
        have hshort : rest.length < n := by
          rw [← hlen, List.length_cons, List.length_append]
          omega
        obtain ⟨new, rfl, rfl⟩ := ih rest.length hshort h rfl
        exact ⟨UInt16.ofNat unit :: new, by simp, by rw [List.flatMap_cons, hform]; rfl⟩

theorem unitsFrom_eq_ok {data : List UInt8} {units : List UInt16} :
    unitsFrom 0 0 [] data = .ok units ↔ data = units.flatMap encodeUnit := by
  constructor
  · intro h
    obtain ⟨new, rfl, rfl⟩ := eq_flatMap_of_unitsFrom h
    rfl
  · rintro rfl
    exact unitsFrom_flatMap 0 [] units

/-- Unit by unit, a byte string decodes to the text that it is the encoding of. -/
theorem decodeUnits_eq_ok {data : List UInt8} {text : String} :
    decodeUnits data = .ok text ↔ data = encodeUnits text := by
  simp only [decodeUnits, Success.except_bind, unitsFrom_eq_ok]
  constructor
  · rintro ⟨units, rfl, h⟩
    split at h
    · rename_i text' hunits
      cases h
      rw [Utf16.decode?_eq_some_iff.mp hunits]
      rfl
    · cases h
  · rintro rfl
    exact ⟨Utf16.encode text, rfl, by rw [Utf16.decode?_eq_some_iff.mpr rfl]⟩

/-! ## The short ways -/

@[simp] theorem isPlain_nil : isPlain [] = true := rfl

@[simp] theorem isPlain_cons (b : UInt8) (data : List UInt8) :
    isPlain (b :: data) = true ↔ (b.toNat ≠ 0 ∧ b.toNat < 0xF0) ∧ isPlain data = true := by
  simp [isPlain, UInt8.lt_iff_toNat_lt, ← UInt8.toNat_inj]

@[simp] theorem isPlain_append (data more : List UInt8) :
    isPlain (data ++ more) = true ↔ isPlain data = true ∧ isPlain more = true := by
  simp [isPlain]

/-- A character whose UTF-8 is plain is one unit, which has the same form. -/
theorem flatMap_encodeUnit_of_isPlain {c : Char} (h : isPlain (Utf8.encodeChar c)) :
    (Utf16.encodeChar c).flatMap encodeUnit = Utf8.encodeChar c := by
  unfold Utf8.encodeChar at h ⊢
  by_cases hone : c.toNat < 0x80
  · have hunit : (UInt16.ofNat c.toNat).toNat = c.toNat :=
      UInt16.toNat_ofNat_of_lt' (show _ < 65536 by omega)
    have hne : c.toNat ≠ 0 := by
      have hbyte : (UInt8.ofNat c.toNat).toNat = c.toNat := toNat_ofNat_lt (by omega)
      rw [if_pos hone, isPlain_cons, hbyte] at h
      exact h.1.1
    simp [Utf16.encodeChar, encodeUnit, hunit, hone, show c.toNat < 0x10000 by omega,
      show 0 < c.toNat by omega]
  · by_cases hthree : c.toNat < 0x10000
    · have hunit : (UInt16.ofNat c.toNat).toNat = c.toNat := UInt16.toNat_ofNat_of_lt' hthree
      simp [Utf16.encodeChar, encodeUnit, hunit, hone, hthree]
    · -- the lead byte of four is not plain
      have hlead : (UInt8.ofNat (0xF0 + c.toNat / 262144)).toNat = 0xF0 + c.toNat / 262144 := by
        have hvalid : c.toNat < 0xD800 ∨ 0xDFFF < c.toNat ∧ c.toNat < 0x110000 := c.valid
        exact toNat_ofNat_lt (by omega)
      rw [if_neg hone, if_neg (by omega), if_neg hthree, isPlain_cons, hlead] at h
      omega

/-- A text whose UTF-8 is plain is encoded as its UTF-8. -/
theorem encodeUnits_of_isPlain {text : String} (h : isPlain (Utf8.encode text)) :
    encodeUnits text = Utf8.encode text := by
  unfold encodeUnits Utf16.encode
  unfold Utf8.encode at h ⊢
  generalize text.toList = cs at h ⊢
  induction cs with
  | nil => rfl
  | cons c cs ih =>
    rw [List.flatMap_cons, isPlain_append] at h
    rw [List.flatMap_cons, List.flatMap_append, ih h.2, flatMap_encodeUnit_of_isPlain h.1,
      List.flatMap_cons]

/-- Whichever way is taken, a text is encoded unit by unit. -/
theorem encode_eq_encodeUnits (text : String) : encode text = encodeUnits text := by
  unfold encode
  by_cases hplain : isPlain (Utf8.encode text)
  · simp [hplain, encodeUnits_of_isPlain hplain]
  · simp [hplain]

/-- Whichever way is taken, a byte string is decoded unit by unit. -/
theorem decode_eq_decodeUnits (data : List UInt8) : decode data = decodeUnits data := by
  unfold decode
  by_cases hplain : isPlain data
  · cases hdecode : Utf8.decode data with
    | error fault => simp [hplain]
    | ok text =>
      obtain rfl := Utf8.eq_encode_of_decode hdecode
      have hunits := decodeUnits_eq_ok.mpr (encodeUnits_of_isPlain hplain).symm
      simp [hplain, hunits]
  · simp [hplain]

/-- A byte string decodes to the text that it is the encoding of, and to no other. -/
theorem decode_eq_ok {data : List UInt8} {text : String} :
    decode data = .ok text ↔ data = encode text := by
  rw [decode_eq_decodeUnits, encode_eq_encodeUnits, decodeUnits_eq_ok]

/-- A text of ASCII characters other than U+0000 takes one byte for each. -/
theorem length_encode_of_ascii {text : String}
    (h : ∀ c ∈ text.toList, 0 < c.toNat ∧ c.toNat < 0x80) : (encode text).length = text.length := by
  rw [encode_eq_encodeUnits, ← String.length_toList]
  unfold encodeUnits Utf16.encode
  generalize text.toList = cs at h ⊢
  induction cs with
  | nil => rfl
  | cons c cs ih =>
    obtain ⟨hc, hcs⟩ := List.forall_mem_cons.mp h
    have hunit : (UInt16.ofNat c.toNat).toNat = c.toNat :=
      UInt16.toNat_ofNat_of_lt' (show _ < 65536 by omega)
    have hone : ((Utf16.encodeChar c).flatMap encodeUnit).length = 1 := by
      simp [Utf16.encodeChar, encodeUnit, hunit, hc, show c.toNat < 0x10000 by omega]
    rw [List.flatMap_cons, List.flatMap_append, List.length_append, hone, ih hcs, List.length_cons,
      Nat.add_comm]

/-- Decoding accepts exactly what encoding produces and inverts it, and on every input the short
ways of both give what going unit by unit gives. -/
theorem decode_eq_ok_iff_encode_eq :
    (∀ data text, decode data = .ok text ↔ encode text = data) ∧
      (∀ text, encode text = encodeUnits text) ∧ ∀ data, decode data = decodeUnits data :=
  ⟨fun _ _ => decode_eq_ok.trans eq_comm, encode_eq_encodeUnits, decode_eq_decodeUnits⟩

end ClassPatch.Text.ModifiedUtf8
