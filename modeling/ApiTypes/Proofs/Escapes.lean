import ApiTypes.Proofs.Name
import ApiTypes.Proofs.Lists

/-!
# Escapes in references

A place can be written as a reference in many ways: a tilde or a slash within a segment has to be
escaped, and besides, any character but the slashes between segments may stand as the percent
escapes of its octets. `Writes` tells all of these.

* `pieces_intercalate`: cutting at a separator undoes joining with it;
* `unescape_escapeSegment`, `percentDecode_of_writes`: each layer of escapes is undone;
* `parsed_of_writes`: so reading gives back the segments, however they were written.
-/

namespace ApiTypes

/-! ## Pieces -/

namespace Text

section
variable {separates : Char → Bool}

theorem pieces_of_free {piece : List Char} (h : ∀ c ∈ piece, separates c = false) :
    pieces separates piece = [piece] := by
  induction piece with
  | nil => rfl
  | cons c rest ih =>
    have free := h c List.mem_cons_self
    simp [pieces, free, ih fun d hd => h d (List.mem_cons_of_mem _ hd)]

theorem pieces_ne_nil (text : List Char) : pieces separates text ≠ [] := by
  induction text with
  | nil => exact List.cons_ne_nil _ _
  | cons c rest ih =>
    rw [pieces]
    split
    · exact List.cons_ne_nil _ _
    · cases hp : pieces separates rest with
      | nil => exact absurd hp ih
      | cons first others => exact List.cons_ne_nil _ _

/-- Text is cut where a separator stands, whatever stands on either side. -/
theorem pieces_join {mark : Char} (hm : separates mark = true) (text rest : List Char) :
    pieces separates (text ++ mark :: rest) = pieces separates text ++ pieces separates rest := by
  induction text with
  | nil => simp [pieces, hm]
  | cons c tail ih =>
    rw [List.cons_append, pieces, pieces, ih]
    split
    · rfl
    · cases hp : pieces separates tail with
      | nil => exact absurd hp (pieces_ne_nil tail)
      | cons first others => rfl

theorem pieces_append {piece : List Char} (h : ∀ c ∈ piece, separates c = false) {mark : Char}
    (hm : separates mark = true) (rest : List Char) :
    pieces separates (piece ++ mark :: rest) = piece :: pieces separates rest := by
  rw [pieces_join hm, pieces_of_free h, List.singleton_append]

/-- Cutting at a separator undoes joining with it. -/
theorem pieces_intercalate {mark : Char} (hm : separates mark = true) {parts : List (List Char)}
    (hp : parts ≠ []) (h : ∀ part ∈ parts, ∀ c ∈ part, separates c = false) :
    pieces separates ([mark].intercalate parts) = parts := by
  induction parts with
  | nil => exact absurd rfl hp
  | cons part rest ih =>
    have first := h part List.mem_cons_self
    cases rest with
    | nil => simpa using pieces_of_free first
    | cons next others =>
      have later := ih (by simp) fun p hm => h p (List.mem_cons_of_mem _ hm)
      rw [List.intercalate_cons_cons, List.append_assoc, List.singleton_append,
        pieces_append first hm, later]

end

end Text

namespace Pointer

/-! ## Tildes and slashes -/

theorem unescape_escapeChar (c : Char) (rest : List Char) :
    unescape (escapeChar c ++ rest) = c :: unescape rest := by
  unfold escapeChar
  split
  · rename_i h
    subst h
    rfl
  · rename_i tilde
    split
    · rename_i h
      subst h
      rfl
    · rw [List.singleton_append, unescape]
      · exact fun _ h _ => tilde h
      · exact fun _ h _ => tilde h

theorem unescape_flatMap (text : List Char) : unescape (text.flatMap escapeChar) = text := by
  induction text with
  | nil => rfl
  | cons c rest ih => rw [List.flatMap_cons, unescape_escapeChar, ih]

/-- No text of a segment is lost by its escapes. -/
theorem unescape_escapeSegment (segment : String) :
    unescape (escapeSegment segment) = segment.toList :=
  unescape_flatMap segment.toList

theorem slash_not_mem_escapeSegment (segment : String) : '/' ∉ escapeSegment segment := by
  intro h
  obtain ⟨c, -, hc⟩ := List.mem_flatMap.1 h
  unfold escapeChar at hc
  split at hc
  · simp at hc
  · split at hc
    · simp at hc
    · rename_i slash
      exact slash (List.mem_singleton.1 hc).symm

/-! ## Percent escapes -/

/-- An octet as a percent escape: its two digits in base sixteen, each in either case. -/
def EscapesOctet (octet : UInt8) (text : List Char) : Prop :=
  ∃ high low, text = ['%', high, low] ∧ Text.hexValue? high = some (octet.toNat / 16) ∧
    Text.hexValue? low = some (octet.toNat % 16)

/-- A character in a reference: as it is, unless it is a percent sign, or as the escapes of its
octets. -/
inductive WritesChar (c : Char) : List Char → Prop
  | plain (other : c ≠ '%') : WritesChar c [c]
  | escaped {escapes : List (List Char)}
      (octets : List.Forall₂ EscapesOctet (String.utf8EncodeChar c) escapes) :
      WritesChar c escapes.flatten

/-- A segment in a reference: tildes and slashes are escaped, and then each character is written in
one way or the other. -/
def WritesSegment (segment : String) (text : List Char) : Prop :=
  ∃ texts, List.Forall₂ WritesChar (escapeSegment segment) texts ∧ text = texts.flatten

/-- The references for the place with the segments. -/
inductive Writes : List String → String → Prop
  | root : Writes [] "#"
  | path {segments : List String} {texts : List (List Char)} (below : segments ≠ [])
      (written : List.Forall₂ WritesSegment segments texts) :
      Writes segments (String.ofList ('#' :: '/' :: ['/'].intercalate texts))

theorem toList_byteArray (octets : ByteArray) : octets.toList = octets.data.toList := by
  have size : octets.data.toList.length = octets.size := rfl
  have loop (left i : Nat) (done : List UInt8) (h : octets.size - i = left) :
      ByteArray.toList.loop octets i done = done.reverse ++ octets.data.toList.drop i := by
    induction left generalizing i done with
    | zero =>
      rw [ByteArray.toList.loop, if_neg (by omega), List.drop_eq_nil_of_le (by omega),
        List.append_nil]
    | succ left ih =>
      have hi : i < octets.data.toList.length := by omega
      have head : octets.get! i = octets.data.toList[i] := by
        have : octets.get! i = octets.data[i]! := rfl
        rw [this, getElem!_pos octets.data i hi, Array.getElem_toList]
      rw [ByteArray.toList.loop, if_pos (by omega), ih _ _ (by omega),
        List.drop_eq_getElem_cons hi, List.reverse_cons, List.append_assoc, head]
      rfl
  exact loop _ 0 [] rfl

/-- The octets of a text are those of its characters. -/
theorem octets_ofList (text : List Char) :
    (String.ofList text).toByteArray.toList = text.flatMap String.utf8EncodeChar := by
  rw [String.toByteArray_ofList, toList_byteArray, List.utf8Encode, List.toList_data_toByteArray]

theorem fromUTF8?_octets (text : List Char) :
    String.fromUTF8? ⟨(text.flatMap String.utf8EncodeChar).toArray⟩ = some (String.ofList text) := by
  have bytes : (⟨(text.flatMap String.utf8EncodeChar).toArray⟩ : ByteArray) =
      (String.ofList text).toByteArray := by
    rw [String.toByteArray_ofList, List.utf8Encode]
    apply ByteArray.ext
    apply Array.toList_inj.1
    rw [List.toList_data_toByteArray]
  have valid : (⟨(text.flatMap String.utf8EncodeChar).toArray⟩ : ByteArray).IsValidUTF8 :=
    bytes ▸ (String.ofList text).isValidUTF8
  rw [String.fromUTF8?, dif_pos valid]
  congr 1
  exact String.toByteArray_inj.1 bytes

/-- The code point of a digit in base sixteen, by its value. -/
theorem toNat_of_hexValue {digit : Char} {value : Nat} (h : Text.hexValue? digit = some value) :
    digit.toNat = 0x30 + value ∧ value < 10 ∨
      (digit.toNat = 0x57 + value ∨ digit.toNat = 0x37 + value) ∧ 10 ≤ value ∧ value < 16 := by
  have le_iff (c d : Char) : c ≤ d ↔ c.toNat ≤ d.toNat := Iff.rfl
  have small : 'a'.toNat = 97 ∧ 'f'.toNat = 102 := ⟨rfl, rfl⟩
  have large : 'A'.toNat = 65 ∧ 'F'.toNat = 70 := ⟨rfl, rfl⟩
  simp only [Text.hexValue?, Text.digitValue, Text.isDigit_iff, Bool.and_eq_true,
    decide_eq_true_eq, le_iff] at h
  split at h
  · cases h
    omega
  · split at h
    · cases h
      omega
    · split at h
      · cases h
        omega
      · cases h

/-- A digit in base sixteen is one octet, which has the digit's value. -/
theorem octet_of_hexValue {digit : Char} {value : Nat} (h : Text.hexValue? digit = some value) :
    ∃ octet, String.utf8EncodeChar digit = [octet] ∧ hexValue? octet = some (UInt8.ofNat value) := by
  have code := toNat_of_hexValue h
  have single : digit.val.toNat ≤ 0x7f := by
    have : digit.val.toNat = digit.toNat := rfl
    omega
  refine ⟨UInt8.ofNat digit.toNat, if_pos single, ?_⟩
  have octet : (UInt8.ofNat digit.toNat).toNat = digit.toNat := by
    rw [UInt8.toNat_ofNat']
    omega
  have less (base : Nat) (h : digit.toNat = base + value) :
      UInt8.ofNat digit.toNat - UInt8.ofNat base = UInt8.ofNat value := by
    rw [h, UInt8.ofNat_add, UInt8.add_comm, UInt8.add_sub_cancel]
  unfold hexValue?
  simp only [UInt8.le_iff_toNat_le, octet, UInt8.reduceToNat]
  rcases code with ⟨decimal, below⟩ | ⟨small | large, above, below⟩
  · rw [if_pos (by omega)]
    exact congrArg some (less _ decimal)
  · rw [if_neg (by omega), if_pos (by omega)]
    exact congrArg some (less _ small)
  · rw [if_neg (by omega), if_neg (by omega), if_pos (by omega)]
    exact congrArg some (less _ large)

theorem percentDecodeOctets_of_ne {octet : UInt8} (h : octet ≠ 0x25) (rest : List UInt8) :
    percentDecodeOctets (octet :: rest) = octet :: percentDecodeOctets rest := by
  rw [percentDecodeOctets]
  rintro _ _ _ rfl
  exact absurd rfl h

theorem percentDecodeOctets_escape {octet : UInt8} {text : List Char} (h : EscapesOctet octet text)
    (rest : List UInt8) :
    percentDecodeOctets (text.flatMap String.utf8EncodeChar ++ rest) =
      octet :: percentDecodeOctets rest := by
  obtain ⟨high, low, rfl, hh, hl⟩ := h
  obtain ⟨h, eh, vh⟩ := octet_of_hexValue hh
  obtain ⟨l, el, vl⟩ := octet_of_hexValue hl
  have percent : String.utf8EncodeChar '%' = [0x25] := rfl
  simp only [List.flatMap_cons, List.flatMap_nil, percent, eh, el, List.cons_append,
    List.nil_append, percentDecodeOctets, vh, vl]
  congr 1
  apply UInt8.toNat_inj.1
  have := octet.toNat_lt
  simp only [UInt8.toNat_add, UInt8.toNat_mul, UInt8.toNat_ofNat', UInt8.reduceToNat]
  omega

theorem percentDecodeOctets_escapes {octets : List UInt8} {texts : List (List Char)}
    (h : List.Forall₂ EscapesOctet octets texts) (rest : List UInt8) :
    percentDecodeOctets (texts.flatten.flatMap String.utf8EncodeChar ++ rest) =
      octets ++ percentDecodeOctets rest := by
  induction h with
  | nil => rfl
  | cons first _ ih =>
    rw [List.flatten_cons, List.flatMap_append, List.append_assoc,
      percentDecodeOctets_escape first, ih, List.cons_append]

/-- An octet below 0x80 is only in the character of that code point. -/
theorem octet_ne_of_ascii {c : Char} {ascii : UInt8} (small : ascii.toNat < 0x80)
    (other : c.toNat ≠ ascii.toNat) : ∀ octet ∈ String.utf8EncodeChar c, octet ≠ ascii := by
  have code : c.val.toNat ≠ ascii.toNat := other
  rintro octet hm rfl
  have lead (n : Nat) (h : octet = UInt8.ofNat n) : n % 256 = octet.toNat := by
    rw [h, UInt8.toNat_ofNat']
  -- All octets of a character of several have their first bit set.
  simp only [String.utf8EncodeChar] at hm
  split at hm
  · have := lead _ (List.mem_singleton.1 hm)
    omega
  · split at hm
    · simp only [List.mem_cons, List.not_mem_nil, or_false] at hm
      rcases hm with h | h <;> have := lead _ h <;> omega
    · split at hm
      · simp only [List.mem_cons, List.not_mem_nil, or_false] at hm
        rcases hm with h | h | h <;> have := lead _ h <;> omega
      · simp only [List.mem_cons, List.not_mem_nil, or_false] at hm
        rcases hm with h | h | h | h <;> have := lead _ h <;> omega

/-- Only the percent sign has the octet that starts an escape. -/
theorem octet_ne_percent {c : Char} (other : c ≠ '%') :
    ∀ octet ∈ String.utf8EncodeChar c, octet ≠ 0x25 :=
  octet_ne_of_ascii (by decide) fun h => other (Char.toNat_inj.1 h)

theorem percentDecodeOctets_plain {octets : List UInt8} (h : ∀ octet ∈ octets, octet ≠ 0x25)
    (rest : List UInt8) :
    percentDecodeOctets (octets ++ rest) = octets ++ percentDecodeOctets rest := by
  induction octets with
  | nil => rfl
  | cons octet more ih =>
    rw [List.cons_append, percentDecodeOctets_of_ne (h octet List.mem_cons_self),
      ih fun o hm => h o (List.mem_cons_of_mem _ hm), List.cons_append]

theorem percentDecodeOctets_writesChar {c : Char} {text : List Char} (h : WritesChar c text)
    (rest : List UInt8) :
    percentDecodeOctets (text.flatMap String.utf8EncodeChar ++ rest) =
      String.utf8EncodeChar c ++ percentDecodeOctets rest := by
  cases h with
  | plain other =>
    rw [List.flatMap_singleton, percentDecodeOctets_plain (octet_ne_percent other)]
  | escaped octets => exact percentDecodeOctets_escapes octets rest

theorem percentDecodeOctets_writes {chars : List Char} {texts : List (List Char)}
    (h : List.Forall₂ WritesChar chars texts) :
    percentDecodeOctets (texts.flatten.flatMap String.utf8EncodeChar) =
      chars.flatMap String.utf8EncodeChar := by
  induction h with
  | nil => rfl
  | cons first _ ih =>
    rw [List.flatten_cons, List.flatMap_append, percentDecodeOctets_writesChar first, ih,
      List.flatMap_cons]

/-- The percent escapes of a text are undone, whichever of its characters are escaped. -/
theorem percentDecode_of_writes {chars : List Char} {texts : List (List Char)}
    (h : List.Forall₂ WritesChar chars texts) :
    percentDecode (String.ofList texts.flatten) = String.ofList chars := by
  rw [percentDecode, octets_ofList, percentDecodeOctets_writes h, fromUTF8?_octets,
    Option.getD_some]

/-! ## Reading -/

theorem readSegment_of_writes {segment : String} {text : List Char}
    (h : WritesSegment segment text) : readSegment text = segment := by
  obtain ⟨texts, written, rfl⟩ := h
  rw [readSegment, percentDecode_of_writes written, String.toList_ofList, unescape_escapeSegment,
    String.ofList_toList]

theorem slash_ne_of_hexValue {digit : Char} {value : Nat}
    (h : Text.hexValue? digit = some value) : '/' ≠ digit := by
  rintro rfl
  have slash : '/'.toNat = 47 := rfl
  have := toNat_of_hexValue h
  omega

theorem slash_not_mem_of_escapes {octets : List UInt8} {texts : List (List Char)}
    (h : List.Forall₂ EscapesOctet octets texts) : '/' ∉ texts.flatten := by
  intro hm
  obtain ⟨text, ht, hc⟩ := List.mem_flatten.1 hm
  obtain ⟨octet, -, high, low, rfl, hh, hl⟩ := exists_left_of_forall₂ h ht
  simp only [List.mem_cons, List.not_mem_nil, or_false] at hc
  rcases hc with e | e | e
  · exact absurd e (by decide)
  · exact slash_ne_of_hexValue hh e
  · exact slash_ne_of_hexValue hl e

/-- So the slashes of a reference are those between its segments. -/
theorem slash_not_mem_of_writes {segment : String} {text : List Char}
    (h : WritesSegment segment text) : '/' ∉ text := by
  obtain ⟨texts, written, rfl⟩ := h
  intro hm
  obtain ⟨text, ht, hc⟩ := List.mem_flatten.1 hm
  obtain ⟨c, among, hw⟩ := exists_left_of_forall₂ written ht
  cases hw with
  | plain other =>
    have same : '/' = c := List.mem_singleton.1 hc
    exact slash_not_mem_escapeSegment segment (same ▸ among)
  | escaped octets => exact slash_not_mem_of_escapes octets hc

/-- Reading a reference gives back the segments, in whichever of all ways they were written. -/
theorem parsed_of_writes {segments : List String} {reference : String}
    (h : Writes segments reference) : ofReference? reference = some ⟨segments⟩ := by
  cases h with
  | root => rfl
  | @path segments texts below written =>
    have free : ∀ text ∈ texts, ∀ c ∈ text, (c == '/') = false := by
      intro text hm c hc
      obtain ⟨segment, -, hw⟩ := exists_left_of_forall₂ written hm
      have : c ≠ '/' := fun e => slash_not_mem_of_writes hw (e ▸ hc)
      simpa using this
    have nonempty : texts ≠ [] := by
      rintro rfl
      cases written
      exact below rfl
    have read : texts.map readSegment = segments.map id :=
      map_eq_of_forall₂ written fun _ _ hw => readSegment_of_writes hw
    rw [List.map_id] at read
    rw [ofReference?, String.toList_ofList]
    change some (Pointer.mk ((Text.pieces (· == '/') (['/'].intercalate texts)).map readSegment)) = _
    rw [Text.pieces_intercalate rfl nonempty free, read]

/-- A tilde by its escape next to one in the open, an empty segment, and a character of two octets
whose digits are in either case. -/
theorem parsed_of_writes_mixed :
    Writes ["a/~", "", "%é"] "#/a%7E1~%30//%25%C3%a9" ∧
      ofReference? "#/a%7E1~%30//%25%C3%a9" = some ⟨["a/~", "", "%é"]⟩ := by
  have escape (octet : UInt8) (high low : Char) (hh : Text.hexValue? high = some (octet.toNat / 16))
      (hl : Text.hexValue? low = some (octet.toNat % 16)) : EscapesOctet octet ['%', high, low] :=
    ⟨high, low, rfl, hh, hl⟩
  have tilde : WritesChar '~' _ := .escaped (.cons (escape 0x7E '7' 'E' rfl rfl) .nil)
  have zero : WritesChar '0' _ := .escaped (.cons (escape 0x30 '3' '0' rfl rfl) .nil)
  have percent : WritesChar '%' _ := .escaped (.cons (escape 0x25 '2' '5' rfl rfl) .nil)
  have accented : WritesChar 'é' _ :=
    .escaped (.cons (escape 0xC3 'C' '3' rfl rfl) (.cons (escape 0xA9 'a' '9' rfl rfl) .nil))
  have first : WritesSegment "a/~" _ :=
    ⟨_, .cons (.plain (by decide)) (.cons tilde (.cons (.plain (by decide))
      (.cons (.plain (by decide)) (.cons zero .nil)))), rfl⟩
  have empty : WritesSegment "" _ := ⟨_, .nil, rfl⟩
  have last : WritesSegment "%é" _ := ⟨_, .cons percent (.cons accented .nil), rfl⟩
  have written : Writes ["a/~", "", "%é"] "#/a%7E1~%30//%25%C3%a9" :=
    .path (by decide) (.cons first (.cons empty (.cons last .nil)))
  exact ⟨written, parsed_of_writes written⟩

end Pointer

end ApiTypes
