import Mathlib
import ClassPatch.Proofs.Text.Utf16
import ClassPatch.Text.Utf8

/-!
# UTF-8 — what is decoded was encoded

Decoding reads one sequence after the other, and the ranges of the bytes after a lead byte leave
out overlong forms and surrogates. So a sequence that is read is the one form of its character,
and a byte string that decodes to a text is the encoding of this text. The other way round, the
bytes of a character lie in the ranges, so that what is refused is the encoding of no text.
-/

namespace ClassPatch.Text.Utf8

/-! ## The bytes after a lead byte -/

/-- The byte lies in the range. -/
def Within (range : UInt8 × UInt8) (b : UInt8) : Prop :=
  range.1.toNat ≤ b.toNat ∧ b.toNat ≤ range.2.toNat

/-- The value of the bytes after a lead byte with the given value bits. -/
def tailValue (bits : Nat) (tail : List UInt8) : Nat :=
  tail.foldl (fun code b => code * 64 + b.toNat % 64) bits

/-- The bytes that are awaited are there, and after them decoding starts again. -/
theorem exists_tail_of_decodeFrom {start seen code : Nat} {acc cs : List Char}
    {range : UInt8 × UInt8} {expected : List (UInt8 × UInt8)} {bytes : List UInt8}
    (h : decodeFrom start seen code acc (range :: expected) bytes = .ok cs) :
    ∃ start' tail rest, bytes = tail ++ rest ∧ List.Forall₂ Within (range :: expected) tail ∧
      decodeFrom start' 0 0 (Char.ofNat (tailValue code tail) :: acc) [] rest = .ok cs := by
  induction expected generalizing seen code range bytes with
  | nil =>
    cases bytes with
    | nil => simp [decodeFrom] at h
    | cons b rest =>
      simp only [decodeFrom] at h
      split at h
      · rename_i hb
        simp only [UInt8.le_iff_toNat_le] at hb
        exact ⟨_, [b], rest, rfl, .cons hb .nil, h⟩
      · cases h
  | cons next expected ih =>
    cases bytes with
    | nil => simp [decodeFrom] at h
    | cons b rest =>
      simp only [decodeFrom] at h
      split at h
      · rename_i hb
        simp only [UInt8.le_iff_toNat_le] at hb
        obtain ⟨start', tail, rest, rfl, htail, hdecode⟩ := ih h
        exact ⟨start', b :: tail, rest, rfl, .cons hb htail, hdecode⟩
      · cases h

/-! ## One sequence -/

theorem ofNat_eq {b : UInt8} {n : Nat} (h : n = b.toNat) : UInt8.ofNat n = b := by
  rw [h, UInt8.ofNat_toNat]

theorem encodeChar_two {lead b : UInt8} (hlead : 0xC2 ≤ lead.toNat ∧ lead.toNat < 0xE0)
    (hb : 0x80 ≤ b.toNat ∧ b.toNat ≤ 0xBF) :
    encodeChar (Char.ofNat (tailValue (leadBits lead 1) [b])) = [lead, b] := by
  have hvalue : tailValue (leadBits lead 1) [b] = lead.toNat % 32 * 64 + b.toNat % 64 := rfl
  have hvalid : (tailValue (leadBits lead 1) [b]).isValidChar := by
    unfold Nat.isValidChar
    omega
  rw [encodeChar, Utf16.toNat_ofNat_of_valid hvalid, hvalue]
  rw [if_neg (by omega), if_pos (by omega), ofNat_eq (b := lead) (by omega),
    ofNat_eq (b := b) (by omega)]

theorem encodeChar_three {lead b b' : UInt8} (hlead : 0xE0 ≤ lead.toNat ∧ lead.toNat < 0xF0)
    (hb : 0x80 ≤ b.toNat ∧ b.toNat ≤ 0xBF) (hb' : 0x80 ≤ b'.toNat ∧ b'.toNat ≤ 0xBF)
    (hshort : lead.toNat = 0xE0 → 0xA0 ≤ b.toNat) (hsurrogate : lead.toNat = 0xED → b.toNat ≤ 0x9F) :
    encodeChar (Char.ofNat (tailValue (leadBits lead 2) [b, b'])) = [lead, b, b'] := by
  have hvalue : tailValue (leadBits lead 2) [b, b'] =
      (lead.toNat % 16 * 64 + b.toNat % 64) * 64 + b'.toNat % 64 := rfl
  have hvalid : (tailValue (leadBits lead 2) [b, b']).isValidChar := by
    unfold Nat.isValidChar
    omega
  rw [encodeChar, Utf16.toNat_ofNat_of_valid hvalid, hvalue]
  rw [if_neg (by omega), if_neg (by omega), if_pos (by omega), ofNat_eq (b := lead) (by omega),
    ofNat_eq (b := b) (by omega), ofNat_eq (b := b') (by omega)]

theorem encodeChar_four {lead b b' b'' : UInt8}
    (hlead : 0xF0 ≤ lead.toNat ∧ lead.toNat ≤ 0xF4)
    (hb : 0x80 ≤ b.toNat ∧ b.toNat ≤ 0xBF) (hb' : 0x80 ≤ b'.toNat ∧ b'.toNat ≤ 0xBF)
    (hb'' : 0x80 ≤ b''.toNat ∧ b''.toNat ≤ 0xBF) (hshort : lead.toNat = 0xF0 → 0x90 ≤ b.toNat)
    (hlarge : lead.toNat = 0xF4 → b.toNat ≤ 0x8F) :
    encodeChar (Char.ofNat (tailValue (leadBits lead 3) [b, b', b''])) = [lead, b, b', b''] := by
  have hvalue : tailValue (leadBits lead 3) [b, b', b''] =
      ((lead.toNat % 8 * 64 + b.toNat % 64) * 64 + b'.toNat % 64) * 64 + b''.toNat % 64 := rfl
  have hvalid : (tailValue (leadBits lead 3) [b, b', b'']).isValidChar := by
    unfold Nat.isValidChar
    omega
  rw [encodeChar, Utf16.toNat_ofNat_of_valid hvalid, hvalue]
  rw [if_neg (by omega), if_neg (by omega), if_neg (by omega), ofNat_eq (b := lead) (by omega),
    ofNat_eq (b := b) (by omega), ofNat_eq (b := b') (by omega), ofNat_eq (b := b'') (by omega)]

/-- A lead byte and bytes in the ranges that it asks for are the form of their character. -/
theorem encodeChar_of_continuations {lead : UInt8} {tail : List UInt8}
    (h : List.Forall₂ Within (continuations lead) tail) (hne : continuations lead ≠ []) :
    encodeChar (Char.ofNat (tailValue (leadBits lead (continuations lead).length) tail)) =
      lead :: tail := by
  unfold continuations at h hne ⊢
  simp only [UInt8.lt_iff_toNat_lt, ← UInt8.toNat_inj, UInt8.reduceToNat] at h hne ⊢
  -- one case for every row of the table of ranges
  split_ifs at h hne ⊢
  · exact absurd rfl hne
  · rcases h with _ | ⟨hb, _ | _⟩
    exact encodeChar_two (by omega) hb
  · rcases h with _ | ⟨hb, _ | ⟨hb', _ | _⟩⟩
    have hb : 0xA0 ≤ _ ∧ _ ≤ 0xBF := hb
    exact encodeChar_three (by omega) (by omega) hb' (by omega) (by omega)
  · rcases h with _ | ⟨hb, _ | ⟨hb', _ | _⟩⟩
    have hb : 0x80 ≤ _ ∧ _ ≤ 0x9F := hb
    exact encodeChar_three (by omega) (by omega) hb' (by omega) (by omega)
  · rcases h with _ | ⟨hb, _ | ⟨hb', _ | _⟩⟩
    exact encodeChar_three (by omega) hb hb' (by omega) (by omega)
  · rcases h with _ | ⟨hb, _ | ⟨hb', _ | ⟨hb'', _ | _⟩⟩⟩
    have hb : 0x90 ≤ _ ∧ _ ≤ 0xBF := hb
    exact encodeChar_four (by omega) (by omega) hb' hb'' (by omega) (by omega)
  · rcases h with _ | ⟨hb, _ | ⟨hb', _ | ⟨hb'', _ | _⟩⟩⟩
    exact encodeChar_four (by omega) hb hb' hb'' (by omega) (by omega)
  · rcases h with _ | ⟨hb, _ | ⟨hb', _ | ⟨hb'', _ | _⟩⟩⟩
    have hb : 0x80 ≤ _ ∧ _ ≤ 0x8F := hb
    exact encodeChar_four (by omega) (by omega) hb' hb'' (by omega) (by omega)
  · exact absurd rfl hne

/-! ## Texts -/

/-- What is decoded from between two sequences on is the encoding of the new characters. -/
theorem eq_flatMap_of_decodeFrom {start : Nat} {acc cs : List Char} {bytes : List UInt8}
    (h : decodeFrom start 0 0 acc [] bytes = .ok cs) :
    ∃ new, cs = acc.reverse ++ new ∧ bytes = new.flatMap encodeChar := by
  -- a sequence may take several bytes, so the induction is on the number of bytes that are left
  induction hlen : bytes.length using Nat.strongRecOn generalizing start acc bytes with
  | ind n ih =>
    cases bytes with
    | nil =>
      simp only [decodeFrom, Except.ok.injEq] at h
      exact ⟨[], by simp [h], rfl⟩
    | cons b rest =>
      rw [List.length_cons] at hlen
      simp only [decodeFrom] at h
      by_cases hascii : b < 0x80
      · rw [if_pos hascii] at h
        obtain ⟨new, rfl, rfl⟩ := ih rest.length (by omega) h rfl
        have hlt : b.toNat < 0x80 := by simpa [UInt8.lt_iff_toNat_lt] using hascii
        have hvalid : b.toNat.isValidChar := by
          unfold Nat.isValidChar
          omega
        refine ⟨Char.ofNat b.toNat :: new, by simp, ?_⟩
        rw [List.flatMap_cons, encodeChar, Utf16.toNat_ofNat_of_valid hvalid, if_pos hlt,
          UInt8.ofNat_toNat]
        rfl
      · rw [if_neg hascii] at h
        cases hranges : continuations b with
        | nil => simp [hranges] at h
        | cons range expected =>
          simp only [hranges] at h
          obtain ⟨start', tail, rest', rfl, htail, hdecode⟩ := exists_tail_of_decodeFrom h
          rw [List.length_append] at hlen
          obtain ⟨new, rfl, rfl⟩ := ih rest'.length (by omega) hdecode rfl
          have hform := encodeChar_of_continuations (hranges ▸ htail) (by simp [hranges])
          rw [hranges, List.length_cons] at hform
          refine ⟨Char.ofNat (tailValue (leadBits b (expected.length + 1)) tail) :: new, by simp, ?_⟩
          rw [List.flatMap_cons, hform]
          rfl

/-- A byte string that is decoded is the encoding of the text. -/
theorem eq_encode_of_decode {bytes : List UInt8} {text : String} (h : decode bytes = .ok text) :
    bytes = encode text := by
  unfold decode at h
  cases hdecode : decodeFrom 0 0 0 [] [] bytes with
  | error fault =>
    rw [hdecode] at h
    cases h
  | ok cs =>
    rw [hdecode] at h
    cases h
    obtain ⟨new, rfl, rfl⟩ := eq_flatMap_of_decodeFrom hdecode
    rw [encode, String.toList_ofList]

/-! ## Both directions -/

/-- The bytes that are awaited complete their character. -/
theorem decodeFrom_tail {start seen code : Nat} {acc : List Char} {range : UInt8 × UInt8}
    {expected : List (UInt8 × UInt8)} {tail rest : List UInt8}
    (h : List.Forall₂ Within (range :: expected) tail) :
    decodeFrom start seen code acc (range :: expected) (tail ++ rest) =
      decodeFrom (start + seen + tail.length) 0 0 (Char.ofNat (tailValue code tail) :: acc)
        [] rest := by
  have within {range : UInt8 × UInt8} {b : UInt8} (hb : Within range b) :
      range.1 ≤ b ∧ b ≤ range.2 := by
    rwa [UInt8.le_iff_toNat_le, UInt8.le_iff_toNat_le]
  induction expected generalizing seen code range tail with
  | nil =>
    obtain _ | ⟨hb, _ | _⟩ := h
    simp only [List.cons_append, List.nil_append, decodeFrom]
    rw [if_pos (within hb)]
    rfl
  | cons next expected ih =>
    obtain _ | ⟨hb, htail⟩ := h
    simp only [List.cons_append, decodeFrom]
    rw [if_pos (within hb), ih htail, List.length_cons, ← Nat.add_assoc, Nat.add_right_comm]
    rfl

theorem continuations_two {lead : UInt8} (hlead : 0xC2 ≤ lead.toNat ∧ lead.toNat < 0xE0) :
    continuations lead = [(0x80, 0xBF)] := by
  simp only [continuations, UInt8.lt_iff_toNat_lt, UInt8.reduceToNat]
  rw [if_neg (by omega), if_pos (by omega)]

theorem exists_continuations_three {lead b : UInt8} (hlead : 0xE0 ≤ lead.toNat ∧ lead.toNat < 0xF0)
    (hb : 0x80 ≤ b.toNat ∧ b.toNat ≤ 0xBF) (hshort : lead.toNat = 0xE0 → 0xA0 ≤ b.toNat)
    (hsurrogate : lead.toNat = 0xED → b.toNat ≤ 0x9F) :
    ∃ range, continuations lead = [range, (0x80, 0xBF)] ∧ Within range b := by
  simp only [continuations, UInt8.lt_iff_toNat_lt, ← UInt8.toNat_inj, UInt8.reduceToNat]
  rw [if_neg (by omega), if_neg (by omega)]
  by_cases hfirst : lead.toNat = 0xE0
  · rw [if_pos hfirst]
    exact ⟨_, rfl, hshort hfirst, hb.2⟩
  · rw [if_neg hfirst]
    by_cases hlater : lead.toNat = 0xED
    · rw [if_pos hlater]
      exact ⟨_, rfl, hb.1, hsurrogate hlater⟩
    · rw [if_neg hlater, if_pos hlead.2]
      exact ⟨_, rfl, hb⟩

theorem exists_continuations_four {lead b : UInt8} (hlead : 0xF0 ≤ lead.toNat ∧ lead.toNat ≤ 0xF4)
    (hb : 0x80 ≤ b.toNat ∧ b.toNat ≤ 0xBF) (hshort : lead.toNat = 0xF0 → 0x90 ≤ b.toNat)
    (hlarge : lead.toNat = 0xF4 → b.toNat ≤ 0x8F) :
    ∃ range, continuations lead = [range, (0x80, 0xBF), (0x80, 0xBF)] ∧ Within range b := by
  simp only [continuations, UInt8.lt_iff_toNat_lt, ← UInt8.toNat_inj, UInt8.reduceToNat]
  rw [if_neg (by omega), if_neg (by omega), if_neg (by omega), if_neg (by omega),
    if_neg (by omega)]
  by_cases hfirst : lead.toNat = 0xF0
  · rw [if_pos hfirst]
    exact ⟨_, rfl, hshort hfirst, hb.2⟩
  · rw [if_neg hfirst]
    by_cases hlast : lead.toNat = 0xF4
    · rw [if_neg (by omega), if_pos hlast]
      exact ⟨_, rfl, hb.1, hlarge hlast⟩
    · rw [if_pos (by omega)]
      exact ⟨_, rfl, hb⟩

/-- A character above the one-byte range is written as a lead byte and bytes in the ranges that it
asks for, which hold its number. -/
theorem exists_continuations (c : Char) (h : 0x80 ≤ c.toNat) :
    ∃ lead tail, encodeChar c = lead :: tail ∧ 0x80 ≤ lead.toNat ∧ continuations lead ≠ [] ∧
      List.Forall₂ Within (continuations lead) tail ∧
      tailValue (leadBits lead (continuations lead).length) tail = c.toNat := by
  have hvalid : c.toNat < 0xD800 ∨ 0xDFFF < c.toNat ∧ c.toNat < 0x110000 := c.valid
  have hbyte (n : Nat) (hn : n < 256) : ∃ b : UInt8, UInt8.ofNat n = b ∧ b.toNat = n :=
    ⟨_, rfl, UInt8.toNat_ofNat_of_lt' hn⟩
  obtain ⟨last, hlast, hlastValue⟩ := hbyte (0x80 + c.toNat % 64) (by omega)
  have hlastWithin : 0x80 ≤ last.toNat ∧ last.toNat ≤ 0xBF := by omega
  simp only [encodeChar]
  rw [if_neg (by omega), hlast]
  split_ifs with htwo hthree
  · obtain ⟨lead, hlead, hleadValue⟩ := hbyte (0xC0 + c.toNat / 64) (by omega)
    have hrange : 0xC2 ≤ lead.toNat ∧ lead.toNat < 0xE0 := by omega
    refine ⟨lead, [last], by rw [hlead], by omega, ?_⟩
    rw [continuations_two hrange]
    refine ⟨List.cons_ne_nil _ _, .cons hlastWithin .nil, ?_⟩
    show lead.toNat % 32 * 64 + last.toNat % 64 = c.toNat
    omega
  · obtain ⟨lead, hlead, hleadValue⟩ := hbyte (0xE0 + c.toNat / 4096) (by omega)
    obtain ⟨middle, hmiddle, hmiddleValue⟩ := hbyte (0x80 + c.toNat / 64 % 64) (by omega)
    have hrange : 0xE0 ≤ lead.toNat ∧ lead.toNat < 0xF0 := by omega
    have hmiddleWithin : 0x80 ≤ middle.toNat ∧ middle.toNat ≤ 0xBF := by omega
    obtain ⟨range, hranges, hwithin⟩ :=
      exists_continuations_three hrange hmiddleWithin (by omega) (by omega)
    refine ⟨lead, [middle, last], by rw [hlead, hmiddle], by omega, ?_⟩
    rw [hranges]
    refine ⟨List.cons_ne_nil _ _, .cons hwithin (.cons hlastWithin .nil), ?_⟩
    show (lead.toNat % 16 * 64 + middle.toNat % 64) * 64 + last.toNat % 64 = c.toNat
    omega
  · obtain ⟨lead, hlead, hleadValue⟩ := hbyte (0xF0 + c.toNat / 262144) (by omega)
    obtain ⟨second, hsecond, hsecondValue⟩ := hbyte (0x80 + c.toNat / 4096 % 64) (by omega)
    obtain ⟨third, hthird, hthirdValue⟩ := hbyte (0x80 + c.toNat / 64 % 64) (by omega)
    have hrange : 0xF0 ≤ lead.toNat ∧ lead.toNat ≤ 0xF4 := by omega
    have hsecondWithin : 0x80 ≤ second.toNat ∧ second.toNat ≤ 0xBF := by omega
    obtain ⟨range, hranges, hwithin⟩ :=
      exists_continuations_four hrange hsecondWithin (by omega) (by omega)
    have hthirdWithin : 0x80 ≤ third.toNat ∧ third.toNat ≤ 0xBF := by omega
    refine ⟨lead, [second, third, last], by rw [hlead, hsecond, hthird], by omega, ?_⟩
    rw [hranges]
    refine ⟨List.cons_ne_nil _ _, .cons hwithin (.cons hthirdWithin (.cons hlastWithin .nil)), ?_⟩
    show ((lead.toNat % 8 * 64 + second.toNat % 64) * 64 + third.toNat % 64) * 64 +
      last.toNat % 64 = c.toNat
    omega

/-- Decoding goes on behind a character. -/
theorem decodeFrom_encodeChar (start : Nat) (acc : List Char) (c : Char) (rest : List UInt8) :
    decodeFrom start 0 0 acc [] (encodeChar c ++ rest) =
      decodeFrom (start + (encodeChar c).length) 0 0 (c :: acc) [] rest := by
  by_cases hascii : c.toNat < 0x80
  · have hform : encodeChar c = [UInt8.ofNat c.toNat] := by rw [encodeChar, if_pos hascii]
    have hvalue : (UInt8.ofNat c.toNat).toNat = c.toNat := UInt8.toNat_ofNat_of_lt' (hascii.trans (by decide))
    have hlow : UInt8.ofNat c.toNat < 0x80 := by rwa [UInt8.lt_iff_toNat_lt, hvalue]
    rw [hform, List.singleton_append, decodeFrom, if_pos hlow, hvalue, Char.ofNat_toNat]
    rfl
  · obtain ⟨lead, tail, hform, hlead, hne, hwithin, hvalue⟩ :=
      exists_continuations c (Nat.not_lt.mp hascii)
    have hhigh : ¬lead < 0x80 := by
      rw [UInt8.lt_iff_toNat_lt]
      exact Nat.not_lt.mpr hlead
    rw [hform, List.cons_append, decodeFrom, if_neg hhigh]
    cases hranges : continuations lead with
    | nil => exact absurd hranges hne
    | cons range expected =>
      rw [hranges] at hwithin hvalue
      simp only []
      rw [← List.length_cons (a := range), decodeFrom_tail hwithin, hvalue, Char.ofNat_toNat,
        List.length_cons, Nat.add_right_comm, Nat.add_assoc]

theorem decode_encode (text : String) : decode (encode text) = .ok text := by
  have hfrom (cs acc : List Char) (start : Nat) :
      decodeFrom start 0 0 acc [] (cs.flatMap encodeChar) = .ok (acc.reverse ++ cs) := by
    induction cs generalizing acc start with
    | nil => simp [decodeFrom]
    | cons c cs ih => rw [List.flatMap_cons, decodeFrom_encodeChar, ih]; simp
  rw [decode, encode, hfrom]
  simp [Except.map]

/-- Decoding accepts the encodings of texts and nothing else. -/
theorem decode_eq_ok_iff {bytes : List UInt8} {text : String} :
    decode bytes = .ok text ↔ encode text = bytes := by
  constructor
  · exact fun h => (eq_encode_of_decode h).symm
  · rintro rfl
    exact decode_encode text

end ClassPatch.Text.Utf8
