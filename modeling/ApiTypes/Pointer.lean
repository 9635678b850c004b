import ApiTypes.Text.Lines

/-!
Pointers: the place of a node in a document, as the path of object keys and element numbers that
leads to it. Two pointers are equal when their segments are, however the references that named
them were written.
-/

namespace ApiTypes

/-- A place in a document, by its unescaped segments from the root. -/
structure Pointer where
  segments : List String
  deriving DecidableEq, Repr

namespace Pointer

/-- The place of the whole document. -/
def root : Pointer :=
  ⟨[]⟩

/-- The place of a member or an element of a node. -/
def child (pointer : Pointer) (segment : String) : Pointer :=
  ⟨pointer.segments ++ [segment]⟩

/-- The place of the element with a number. -/
def element (pointer : Pointer) (number : Nat) : Pointer :=
  pointer.child (toString number)

/-- The enclosing place. The root has none. -/
def parent? (pointer : Pointer) : Option Pointer :=
  if pointer.segments.isEmpty then none else some ⟨pointer.segments.dropLast⟩

/-- The last segment. The root has none. -/
def last? (pointer : Pointer) : Option String :=
  pointer.segments.getLast?

/-- How many steps lead from the root to here. -/
def depth (pointer : Pointer) : Nat :=
  pointer.segments.length

/-- Pointers are ordered by their segments, the first difference deciding. -/
instance : LT Pointer :=
  ⟨fun p q => p.segments < q.segments⟩

instance (p q : Pointer) : Decidable (p < q) :=
  inferInstanceAs (Decidable (p.segments < q.segments))

/-! ### Written form -/

/-- One character of a written segment. A slash ends a segment and a tilde starts an escape, so
neither stands for itself. -/
def escapeChar (c : Char) : List Char :=
  if c = '~' then ['~', '0'] else if c = '/' then ['~', '1'] else [c]

/-- A segment as written. -/
def escapeSegment (segment : String) : List Char :=
  segment.toList.flatMap escapeChar

/-- The text of a pointer: a hash sign and every segment after a slash. -/
def toText (pointer : Pointer) : String :=
  String.ofList ('#' :: pointer.segments.flatMap fun segment => '/' :: escapeSegment segment)

/-! ### Reading -/

/-- Undoes `escapeChar` over a written segment. A tilde that starts no escape stands for itself. -/
def unescape : List Char → List Char
  | [] => []
  | '~' :: '0' :: rest => '~' :: unescape rest
  | '~' :: '1' :: rest => '/' :: unescape rest
  | c :: rest => c :: unescape rest

/-- The value of a digit in base sixteen, by its octet. -/
def hexValue? (octet : UInt8) : Option UInt8 :=
  if 0x30 ≤ octet ∧ octet ≤ 0x39 then some (octet - 0x30)
  else if 0x61 ≤ octet ∧ octet ≤ 0x66 then some (octet - 0x57)
  else if 0x41 ≤ octet ∧ octet ≤ 0x46 then some (octet - 0x37)
  else none

/-- Octets with every percent escape replaced by the octet it names. A percent sign that starts
no escape stands for itself. -/
def percentDecodeOctets : List UInt8 → List UInt8
  | 0x25 :: high :: low :: rest =>
    match hexValue? high, hexValue? low with
    | some h, some l => (h * 16 + l) :: percentDecodeOctets rest
    | _, _ => 0x25 :: percentDecodeOctets (high :: low :: rest)
  | octet :: rest => octet :: percentDecodeOctets rest
  | [] => []

/-- A text with its percent escapes decoded. When the octets are not UTF-8 afterwards the text
counts as unescaped. -/
def percentDecode (text : String) : String :=
  (String.fromUTF8? ⟨(percentDecodeOctets text.toByteArray.toList).toArray⟩).getD text

/-- A segment as read. -/
def readSegment (written : List Char) : String :=
  String.ofList (unescape (percentDecode (String.ofList written)).toList)

/-- The place that a reference within the document names: `#` is the root, `#/` and segments are
a path from it. Anything else points into another document or nowhere. -/
def ofReference? (reference : String) : Option Pointer :=
  match reference.toList with
  | ['#'] => some root
  | '#' :: '/' :: path => some ⟨(Text.pieces (· == '/') path).map readSegment⟩
  | _ => none

end Pointer

end ApiTypes
