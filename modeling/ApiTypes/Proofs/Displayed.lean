import ApiTypes.Proofs.Escapes

/-!
# Displayed places

A place is shown as a reference, with its tildes and slashes escaped and nothing else, while reading
a reference decodes percent escapes too. So a segment that holds what looks like such an escape is
read as something else, unless decoding it whole leaves no text.

* `escapedSize`: how many octets a text takes once it is unescaped and escaped again, which decoding
  a percent escape lowers (`escapedSize_decoded`), so that what was decoded is not read back;
* `readSegment_escapeSegment_iff`: which segments are read back;
* `toText_reads`: which places are, and no two places are shown alike.
-/

namespace ApiTypes.Pointer

/-! ## Percent escapes in a text -/

/-- The text starts with a percent sign and two digits in base sixteen. -/
def StartsEscape (text : List Char) : Prop :=
  ∃ high low rest, text = '%' :: high :: low :: rest ∧ (Text.hexValue? high).isSome ∧
    (Text.hexValue? low).isSome

/-- A percent sign and two digits in base sixteen stand somewhere in the text. -/
def HasEscape (text : List Char) : Prop :=
  ∃ before after, text = before ++ after ∧ StartsEscape after

/-- The octets of a segment as it is shown. -/
def shownOctets (segment : String) : List UInt8 :=
  (escapeSegment segment).flatMap String.utf8EncodeChar

/-- What is left of the segment as it is shown when its percent escapes are decoded is a text. -/
def DecodesToText (segment : String) : Prop :=
  ByteArray.IsValidUTF8 ⟨(percentDecodeOctets (shownOctets segment)).toArray⟩

theorem hasEscape_cons {c : Char} {rest : List Char} :
    HasEscape (c :: rest) ↔ StartsEscape (c :: rest) ∨ HasEscape rest := by
  constructor
  · rintro ⟨before, after, split, starts⟩
    cases before with
    | nil => exact .inl (split ▸ starts)
    | cons first before => exact .inr ⟨before, after, (List.cons.inj split).2, starts⟩
  · rintro (starts | ⟨before, after, rfl, starts⟩)
    · exact ⟨[], _, rfl, starts⟩
    · exact ⟨c :: before, after, rfl, starts⟩

theorem not_hasEscape_nil : ¬HasEscape [] := by
  rintro ⟨before, after, split, high, low, rest, rfl, -⟩
  simp at split

theorem percent_mem_of_hasEscape {text : List Char} (h : HasEscape text) : '%' ∈ text := by
  obtain ⟨before, _, rfl, high, low, rest, rfl, -⟩ := h
  simp

/-! ## Octets of a text -/

/-- A character whose first octet is below 0x80 has no other. -/
theorem ascii_of_lead {c : Char} {lead : UInt8} {more : List UInt8} (small : lead.toNat < 0x80)
    (h : String.utf8EncodeChar c = lead :: more) : more = [] ∧ c.toNat = lead.toNat := by
  have code : c.val.toNat = c.toNat := rfl
  simp only [String.utf8EncodeChar, code] at h
  split at h
  · obtain ⟨rfl, rfl⟩ := List.cons.inj h
    refine ⟨rfl, ?_⟩
    rw [UInt8.toNat_ofNat']
    omega
  · exfalso
    split at h
    · rw [← (List.cons.inj h).1, UInt8.toNat_ofNat'] at small
      omega
    · split at h
      all_goals
        rw [← (List.cons.inj h).1, UInt8.toNat_ofNat'] at small
        omega

/-- A text whose first octet is below 0x80 starts with the character of that code point. -/
theorem exists_of_octets {text : List Char} {lead : UInt8} {more : List UInt8}
    (small : lead.toNat < 0x80) (h : text.flatMap String.utf8EncodeChar = lead :: more) :
    ∃ c rest, text = c :: rest ∧ c.toNat = lead.toNat ∧
      more = rest.flatMap String.utf8EncodeChar := by
  cases text with
  | nil => simp at h
  | cons c rest =>
    rw [List.flatMap_cons] at h
    cases he : String.utf8EncodeChar c with
    | nil => exact absurd he (String.utf8EncodeChar_ne_nil)
    | cons first others =>
      rw [he, List.cons_append] at h
      obtain ⟨rfl, rest_eq⟩ := List.cons.inj h
      obtain ⟨rfl, code⟩ := ascii_of_lead small he
      exact ⟨c, rest, rfl, code, rest_eq.symm⟩

theorem hexValue?_isSome_iff {c : Char} {octet : UInt8} (same : c.toNat = octet.toNat) :
    (Text.hexValue? c).isSome ↔ (hexValue? octet).isSome := by
  have le_iff (c d : Char) : c ≤ d ↔ c.toNat ≤ d.toNat := Iff.rfl
  have small : 'a'.toNat = 97 ∧ 'f'.toNat = 102 := ⟨rfl, rfl⟩
  have large : 'A'.toNat = 65 ∧ 'F'.toNat = 70 := ⟨rfl, rfl⟩
  simp only [Text.hexValue?, hexValue?, Text.isDigit_iff, Bool.and_eq_true, decide_eq_true_eq,
    le_iff, UInt8.le_iff_toNat_le, UInt8.reduceToNat, same, small, large]
  split_ifs <;> rfl

/-! ## Decoding -/

theorem percentDecodeOctets_percent {rest : List UInt8}
    (h : ∀ high low more, rest = high :: low :: more →
      ¬((hexValue? high).isSome ∧ (hexValue? low).isSome)) :
    percentDecodeOctets (0x25 :: rest) = 0x25 :: percentDecodeOctets rest := by
  match rest with
  | [] => rfl
  | [octet] => rfl
  | high :: low :: more =>
    have digits := h high low more rfl
    rw [percentDecodeOctets]
    cases hh : hexValue? high with
    | none => rfl
    | some high =>
      cases hl : hexValue? low with
      | none => rfl
      | some low => simp [hh, hl] at digits

theorem small_of_hexValue {octet : UInt8} (h : (hexValue? octet).isSome) : octet.toNat < 0x80 := by
  simp only [hexValue?, UInt8.le_iff_toNat_le, UInt8.reduceToNat] at h
  split_ifs at h
  · omega
  · omega
  · omega
  · cases h

/-- A character that starts no escape is decoded to itself. -/
theorem percentDecodeOctets_plainChar {c : Char} {rest : List Char}
    (h : ¬StartsEscape (c :: rest)) :
    percentDecodeOctets ((c :: rest).flatMap String.utf8EncodeChar) =
      String.utf8EncodeChar c ++ percentDecodeOctets (rest.flatMap String.utf8EncodeChar) := by
  rw [List.flatMap_cons]
  by_cases percent : c = '%'
  · subst percent
    refine percentDecodeOctets_percent ?_
    rintro high low more split ⟨hh, hl⟩
    obtain ⟨a, after, rfl, ha, later⟩ := exists_of_octets (small_of_hexValue hh) split
    obtain ⟨b, last, rfl, hb, -⟩ := exists_of_octets (small_of_hexValue hl) later.symm
    exact h ⟨a, b, last, rfl, (hexValue?_isSome_iff ha).2 hh, (hexValue?_isSome_iff hb).2 hl⟩
  · exact percentDecodeOctets_plain (octet_ne_percent percent) _

/-- Two digits in base sixteen are an octet. -/
theorem exists_escapesOctet {high low : Char} (hh : (Text.hexValue? high).isSome)
    (hl : (Text.hexValue? low).isSome) : ∃ octet, EscapesOctet octet ['%', high, low] := by
  obtain ⟨h, hh⟩ := Option.isSome_iff_exists.1 hh
  obtain ⟨l, hl⟩ := Option.isSome_iff_exists.1 hl
  have ofHigh := toNat_of_hexValue hh
  have ofLow := toNat_of_hexValue hl
  have value : (UInt8.ofNat (h * 16 + l)).toNat = h * 16 + l := by
    rw [UInt8.toNat_ofNat']
    omega
  refine ⟨UInt8.ofNat (h * 16 + l), high, low, rfl, ?_, ?_⟩
  · rw [hh, value]
    congr 1
    omega
  · rw [hl, value]
    congr 1
    omega

/-! ## Escapes of tildes and slashes -/

theorem escapeChar_of_ne {c : Char} (tilde : c ≠ '~') (slash : c ≠ '/') : escapeChar c = [c] := by
  rw [escapeChar, if_neg tilde, if_neg slash]

theorem escapeChar_of_hexValue {c : Char} (h : (Text.hexValue? c).isSome) : escapeChar c = [c] := by
  obtain ⟨value, h⟩ := Option.isSome_iff_exists.1 h
  have code := toNat_of_hexValue h
  refine escapeChar_of_ne ?_ ?_
  · rintro rfl
    have : '~'.toNat = 126 := rfl
    omega
  · rintro rfl
    have : '/'.toNat = 47 := rfl
    omega

/-- What an escaped text starts with, if with no tilde, the text starts with. -/
theorem exists_of_escaped {text more : List Char} {c : Char} (tilde : c ≠ '~')
    (h : text.flatMap escapeChar = c :: more) :
    ∃ rest, text = c :: rest ∧ more = rest.flatMap escapeChar := by
  cases text with
  | nil => cases h
  | cons first rest =>
    rw [List.flatMap_cons] at h
    by_cases isTilde : first = '~'
    · subst isTilde
      exact absurd (List.cons.inj h).1.symm tilde
    · by_cases isSlash : first = '/'
      · subst isSlash
        exact absurd (List.cons.inj h).1.symm tilde
      · rw [escapeChar_of_ne isTilde isSlash] at h
        obtain ⟨rfl, same⟩ := List.cons.inj h
        exact ⟨rest, rfl, same.symm⟩

theorem ne_tilde_of_hexValue {c : Char} (h : (Text.hexValue? c).isSome) : c ≠ '~' := by
  rintro rfl
  cases h

/-- Escaping tildes and slashes makes no percent escape. -/
theorem startsEscape_of_escaped {text : List Char} (h : StartsEscape (text.flatMap escapeChar)) :
    StartsEscape text := by
  obtain ⟨high, low, rest, same, hh, hl⟩ := h
  obtain ⟨_, rfl, second⟩ := exists_of_escaped (by decide) same
  obtain ⟨_, rfl, third⟩ := exists_of_escaped (ne_tilde_of_hexValue hh) second.symm
  obtain ⟨last, rfl, -⟩ := exists_of_escaped (ne_tilde_of_hexValue hl) third.symm
  exact ⟨high, low, last, rfl, hh, hl⟩

theorem percent_not_mem_escapeChar {c : Char} (other : c ≠ '%') : '%' ∉ escapeChar c := by
  unfold escapeChar
  split
  · simp
  · split
    · simp
    · exact fun h => other (List.mem_singleton.1 h).symm

/-- The escapes of a character that starts no percent escape are decoded to themselves. -/
theorem percentDecodeOctets_escapeChar {c : Char} {rest : List Char}
    (h : ¬StartsEscape (c :: rest)) :
    percentDecodeOctets ((escapeChar c).flatMap String.utf8EncodeChar ++
        (rest.flatMap escapeChar).flatMap String.utf8EncodeChar) =
      (escapeChar c).flatMap String.utf8EncodeChar ++
        percentDecodeOctets ((rest.flatMap escapeChar).flatMap String.utf8EncodeChar) := by
  by_cases percent : c = '%'
  · subst percent
    have plain : escapeChar '%' = ['%'] := rfl
    have free : ¬StartsEscape ('%' :: rest.flatMap escapeChar) := by
      intro starts
      refine h (startsEscape_of_escaped ?_)
      rwa [List.flatMap_cons, plain]
    rw [plain, List.flatMap_singleton]
    exact percentDecodeOctets_plainChar free
  · refine percentDecodeOctets_plain (fun octet hm => ?_) _
    obtain ⟨d, among, ho⟩ := List.mem_flatMap.1 hm
    exact octet_ne_percent (fun same => percent_not_mem_escapeChar percent (same ▸ among)) octet ho

/-- Without a percent escape a shown segment is decoded to itself. -/
theorem percentDecodeOctets_shown {text : List Char} (h : ¬HasEscape text) :
    percentDecodeOctets ((text.flatMap escapeChar).flatMap String.utf8EncodeChar) =
      (text.flatMap escapeChar).flatMap String.utf8EncodeChar := by
  induction text with
  | nil => rfl
  | cons c rest ih =>
    rw [hasEscape_cons, not_or] at h
    rw [List.flatMap_cons, List.flatMap_append, percentDecodeOctets_escapeChar h.1, ih h.2]

/-! ## Sizes -/

/-- How many octets a text takes once it is unescaped and escaped again, by its octets. -/
def escapedSize : List UInt8 → Nat
  | 0x7E :: 0x30 :: rest => escapedSize rest + 2
  | 0x7E :: 0x31 :: rest => escapedSize rest + 2
  | octet :: rest => escapedSize rest + if octet = 0x7E ∨ octet = 0x2F then 2 else 1
  | [] => 0

theorem escapedSize_cons_le (octet : UInt8) (rest : List UInt8) :
    escapedSize (octet :: rest) ≤ escapedSize rest + 2 := by
  rw [escapedSize.eq_def]
  split
  · rename_i same
    obtain ⟨rfl, rfl⟩ := List.cons.inj same
    simp [escapedSize]
  · rename_i same
    obtain ⟨rfl, rfl⟩ := List.cons.inj same
    simp [escapedSize]
  · rename_i same
    obtain ⟨rfl, rfl⟩ := List.cons.inj same
    split <;> omega
  · rename_i same
    cases same

theorem escapedSize_of_ne_tilde {octet : UInt8} (h : octet ≠ 0x7E) (rest : List UInt8) :
    escapedSize (octet :: rest) = escapedSize rest + if octet = 0x2F then 2 else 1 := by
  rw [escapedSize]
  · simp only [h, false_or]
  · rintro _ rfl
    exact absurd rfl h
  · rintro _ rfl
    exact absurd rfl h

theorem escapedSize_plain {octets : List UInt8} (h : ∀ octet ∈ octets, octet ≠ 0x7E ∧ octet ≠ 0x2F)
    (rest : List UInt8) : escapedSize (octets ++ rest) = escapedSize rest + octets.length := by
  induction octets with
  | nil => rfl
  | cons octet more ih =>
    obtain ⟨tilde, slash⟩ := h octet List.mem_cons_self
    rw [List.cons_append, escapedSize_of_ne_tilde tilde, if_neg slash,
      ih fun o hm => h o (List.mem_cons_of_mem _ hm), List.length_cons, Nat.add_assoc]

/-- The octets of a character that is no tilde and no slash are none of those two. -/
theorem octets_plain {c : Char} (tilde : c ≠ '~') (slash : c ≠ '/') :
    ∀ octet ∈ String.utf8EncodeChar c, octet ≠ 0x7E ∧ octet ≠ 0x2F := fun octet hm =>
  ⟨octet_ne_of_ascii (by decide) (fun h => tilde (Char.toNat_inj.1 h)) octet hm,
    octet_ne_of_ascii (by decide) (fun h => slash (Char.toNat_inj.1 h)) octet hm⟩

/-- The escapes of a character count in full. -/
theorem escapedSize_escapeChar (c : Char) (rest : List UInt8) :
    escapedSize ((escapeChar c).flatMap String.utf8EncodeChar ++ rest) =
      escapedSize rest + ((escapeChar c).flatMap String.utf8EncodeChar).length := by
  by_cases tilde : c = '~'
  · subst tilde
    rfl
  · by_cases slash : c = '/'
    · subst slash
      rfl
    · rw [escapeChar_of_ne tilde slash, List.flatMap_singleton]
      exact escapedSize_plain (octets_plain tilde slash) rest

/-- A tilde that starts no escape would be escaped. -/
theorem escapedSize_tilde {rest : List Char} (zero : ∀ more, rest ≠ '0' :: more)
    (one : ∀ more, rest ≠ '1' :: more) :
    escapedSize (0x7E :: rest.flatMap String.utf8EncodeChar) =
      escapedSize (rest.flatMap String.utf8EncodeChar) + 2 := by
  have other (digit : UInt8) (small : digit.toNat < 0x80) (c : Char) (code : c.toNat = digit.toNat)
      (free : ∀ more, rest ≠ c :: more) (more : List UInt8) :
      rest.flatMap String.utf8EncodeChar ≠ digit :: more := by
    intro same
    obtain ⟨d, later, rfl, value, -⟩ := exists_of_octets small same
    exact free later (by rw [Char.toNat_inj.1 (value.trans code.symm)])
  rw [escapedSize]
  · simp
  · exact fun more _ same => other 0x30 (by decide) '0' rfl zero more same
  · exact fun more _ same => other 0x31 (by decide) '1' rfl one more same

/-- `escapedSize` is what its name says. -/
theorem escapedSize_octets (text : List Char) :
    escapedSize (text.flatMap String.utf8EncodeChar) =
      (((unescape text).flatMap escapeChar).flatMap String.utf8EncodeChar).length := by
  fun_induction unescape text with
  | case1 => rfl
  | case2 rest ih =>
    change escapedSize (rest.flatMap String.utf8EncodeChar) + 2 = _
    rw [ih]
    rfl
  | case3 rest ih =>
    change escapedSize (rest.flatMap String.utf8EncodeChar) + 2 = _
    rw [ih]
    rfl
  | case4 c rest zero one ih =>
    rw [List.flatMap_cons]
    by_cases tilde : c = '~'
    · subst tilde
      refine (escapedSize_tilde (fun more => zero more rfl) fun more => one more rfl).trans ?_
      rw [ih]
      rfl
    · by_cases slash : c = '/'
      · subst slash
        refine (escapedSize_of_ne_tilde (by decide) _).trans ?_
        change escapedSize (rest.flatMap String.utf8EncodeChar) + 2 = _
        rw [ih]
        rfl
      · rw [escapedSize_plain (octets_plain tilde slash), ih, List.flatMap_cons,
          escapeChar_of_ne tilde slash, List.flatMap_append, List.flatMap_singleton,
          List.length_append, Nat.add_comm]

/-! ## Decoding makes a shown segment smaller -/

/-- What a shown segment comes to when it is decoded would not fill it again, if there is an escape
in it: three octets become one, and that one needs at most two. -/
theorem escapedSize_decoded (text : List Char) :
    let shown := (text.flatMap escapeChar).flatMap String.utf8EncodeChar
    escapedSize (percentDecodeOctets shown) ≤ shown.length ∧
      (HasEscape text → escapedSize (percentDecodeOctets shown) < shown.length) := by
  match text with
  | [] => exact ⟨Nat.le_refl 0, fun h => absurd h not_hasEscape_nil⟩
  | c :: rest =>
    by_cases starts : StartsEscape (c :: rest)
    · obtain ⟨high, low, after, same, hh, hl⟩ := starts
      obtain ⟨rfl, rfl⟩ := List.cons.inj same
      have shorter := (escapedSize_decoded after).1
      obtain ⟨octet, escapes⟩ := exists_escapesOctet hh hl
      have size : (['%', high, low].flatMap String.utf8EncodeChar).length = 3 := by
        obtain ⟨h, hh⟩ := Option.isSome_iff_exists.1 hh
        obtain ⟨l, hl⟩ := Option.isSome_iff_exists.1 hl
        obtain ⟨_, eh, -⟩ := octet_of_hexValue hh
        obtain ⟨_, el, -⟩ := octet_of_hexValue hl
        simp only [List.flatMap_cons, List.flatMap_nil, eh, el]
        rfl
      have shown : ('%' :: high :: low :: after).flatMap escapeChar =
          ['%', high, low] ++ after.flatMap escapeChar := by
        simp only [List.flatMap_cons, escapeChar_of_hexValue hh, escapeChar_of_hexValue hl]
        rfl
      dsimp only at shorter ⊢
      rw [shown, List.flatMap_append, percentDecodeOctets_escape escapes, List.length_append, size]
      have one := escapedSize_cons_le octet
        (percentDecodeOctets ((after.flatMap escapeChar).flatMap String.utf8EncodeChar))
      exact ⟨by omega, fun _ => by omega⟩
    · have later := escapedSize_decoded rest
      dsimp only at later ⊢
      rw [List.flatMap_cons, List.flatMap_append, percentDecodeOctets_escapeChar starts,
        escapedSize_escapeChar, List.length_append, hasEscape_cons]
      refine ⟨by omega, ?_⟩
      rintro (early | inside)
      · exact absurd early starts
      · have := later.2 inside
        omega
termination_by text.length

/-! ## Reading what is shown -/

/-- Decoding a text to the octets of another gives that one. -/
theorem percentDecode_of_octets {text decoded : List Char}
    (h : percentDecodeOctets (text.flatMap String.utf8EncodeChar) =
      decoded.flatMap String.utf8EncodeChar) :
    percentDecode (String.ofList text) = String.ofList decoded := by
  rw [percentDecode, octets_ofList, h, fromUTF8?_octets, Option.getD_some]

theorem octets_of_isValid {octets : List UInt8}
    (h : ByteArray.IsValidUTF8 ⟨octets.toArray⟩) :
    ∃ text : List Char, octets = text.flatMap String.utf8EncodeChar := by
  obtain ⟨text, same⟩ := h
  refine ⟨text, ?_⟩
  have lists := congrArg (fun bytes : ByteArray => bytes.data.toList) same
  rwa [List.utf8Encode, List.toList_data_toByteArray] at lists

theorem percentDecode_of_not_isValid {text : List Char}
    (h : ¬ByteArray.IsValidUTF8
      ⟨(percentDecodeOctets (text.flatMap String.utf8EncodeChar)).toArray⟩) :
    percentDecode (String.ofList text) = String.ofList text := by
  rw [percentDecode, octets_ofList, String.fromUTF8?, dif_neg h, Option.getD_none]

theorem readSegment_escapeSegment_iff (segment : String) :
    readSegment (escapeSegment segment) = segment ↔
      ¬(HasEscape segment.toList ∧ DecodesToText segment) := by
  have same_iff (text : List Char) : String.ofList text = segment ↔ text = segment.toList :=
    ⟨fun h => by rw [← h, String.toList_ofList], fun h => by rw [h, String.ofList_toList]⟩
  by_cases valid : DecodesToText segment
  · by_cases escape : HasEscape segment.toList
    · refine iff_of_false (fun h => ?_) fun h => h ⟨escape, valid⟩
      -- the decoded text would have to fill the shown one again
      obtain ⟨decoded, octets⟩ := octets_of_isValid valid
      rw [readSegment, percentDecode_of_octets octets, String.toList_ofList, same_iff] at h
      have smaller := (escapedSize_decoded segment.toList).2 escape
      change escapedSize (percentDecodeOctets (shownOctets segment)) < _ at smaller
      rw [octets, escapedSize_octets, h] at smaller
      exact Nat.lt_irrefl _ smaller
    · refine iff_of_true ?_ fun h => escape h.1
      have decoded : percentDecode (String.ofList (escapeSegment segment)) =
          String.ofList (escapeSegment segment) :=
        percentDecode_of_octets (percentDecodeOctets_shown escape)
      rw [readSegment, decoded, String.toList_ofList, same_iff]
      exact unescape_escapeSegment segment
  · refine iff_of_true ?_ fun h => valid h.2
    rw [readSegment, percentDecode_of_not_isValid valid, String.toList_ofList, same_iff]
    exact unescape_escapeSegment segment

/-- The segments as written in the text of a place that is not the root. -/
theorem pieces_path {segments : List String} (below : segments ≠ []) :
    ∃ path, segments.flatMap (fun segment => '/' :: escapeSegment segment) = '/' :: path ∧
      Text.pieces (· == '/') path = segments.map escapeSegment := by
  have free : ∀ text ∈ segments.map escapeSegment, ∀ c ∈ text, (c == '/') = false := by
    intro text hm c hc
    obtain ⟨segment, -, rfl⟩ := List.mem_map.1 hm
    have : c ≠ '/' := fun e => slash_not_mem_escapeSegment segment (e ▸ hc)
    simpa using this
  refine ⟨['/'].intercalate (segments.map escapeSegment), ?_,
    Text.pieces_intercalate rfl (by simpa using below) free⟩
  clear free
  induction segments with
  | nil => exact absurd rfl below
  | cons segment rest ih =>
    cases rest with
    | nil => simp
    | cons next others =>
      rw [List.flatMap_cons, ih (by simp)]
      simp [List.intercalate_cons_cons]

theorem ofReference?_toText (place : Pointer) :
    ofReference? place.toText =
      some ⟨place.segments.map fun segment => readSegment (escapeSegment segment)⟩ := by
  obtain ⟨segments⟩ := place
  cases segments with
  | nil => rfl
  | cons first rest =>
    obtain ⟨path, written, pieces⟩ := pieces_path (List.cons_ne_nil first rest)
    rw [ofReference?, toText, String.toList_ofList, written]
    change some (Pointer.mk ((Text.pieces (· == '/') path).map readSegment)) = _
    rw [pieces, List.map_map]
    rfl

theorem toText_injective : Function.Injective toText := by
  intro p q same
  have lists := congrArg String.toList same
  rw [toText, toText, String.toList_ofList, String.toList_ofList] at lists
  have lists := (List.cons.inj lists).2
  have segments : p.segments.map escapeSegment = q.segments.map escapeSegment := by
    by_cases hp : p.segments = []
    · rw [hp] at lists ⊢
      cases hq : q.segments with
      | nil => rfl
      | cons first rest =>
        rw [hq] at lists
        cases lists
    · by_cases hq : q.segments = []
      · rw [hq] at lists
        obtain ⟨path, written, -⟩ := pieces_path hp
        rw [written] at lists
        cases lists
      · obtain ⟨path, written, pieces⟩ := pieces_path hp
        obtain ⟨path', written', pieces'⟩ := pieces_path hq
        rw [written, written'] at lists
        rw [← pieces, ← pieces', (List.cons.inj lists).2]
  have injective : Function.Injective escapeSegment := by
    intro a b same
    rw [← String.toList_inj, ← unescape_escapeSegment a, ← unescape_escapeSegment b, same]
  obtain ⟨p⟩ := p
  obtain ⟨q⟩ := q
  exact congrArg Pointer.mk (injective.list_map segments)

/-- A place as it is shown is read back exactly if no segment of it holds what looks like a percent
escape and is a text once all that looks so is decoded. So without percent signs every place is read
back, and no two places are shown alike. -/
theorem toText_reads :
    (∀ place : Pointer, ofReference? place.toText = some place ↔
      ∀ segment ∈ place.segments, ¬(HasEscape segment.toList ∧ DecodesToText segment)) ∧
    (∀ place : Pointer, (∀ segment ∈ place.segments, '%' ∉ segment.toList) →
      ofReference? place.toText = some place) ∧
    Function.Injective toText := by
  have reads (place : Pointer) : ofReference? place.toText = some place ↔
      ∀ segment ∈ place.segments, ¬(HasEscape segment.toList ∧ DecodesToText segment) := by
    obtain ⟨segments⟩ := place
    rw [ofReference?_toText, Option.some.injEq, Pointer.mk.injEq]
    simp only [← readSegment_escapeSegment_iff]
    calc segments.map (fun segment => readSegment (escapeSegment segment)) = segments
        ↔ segments.map (fun segment => readSegment (escapeSegment segment)) = segments.map id := by
          rw [List.map_id]
      _ ↔ ∀ segment ∈ segments, readSegment (escapeSegment segment) = id segment :=
          List.map_inj_left
  refine ⟨reads, fun place plain => (reads place).2 ?_, toText_injective⟩
  intro segment hm both
  exact plain segment hm (percent_mem_of_hasEscape both.1)

/-- The letter A by its escape is read as the letter. -/
example : ofReference? (toText ⟨["%41/~", ""]⟩) = some ⟨["A/~", ""]⟩ := by decide +kernel

/-- No text has the octet 0xFF, so the whole segment stays as it is. -/
example : ofReference? (toText ⟨["%41%FF/~", ""]⟩) = some ⟨["%41%FF/~", ""]⟩ := by decide +kernel

end ApiTypes.Pointer
