import ApiTypes.Proofs.Reading.Comment

/-!
# Comments end where they should

A block comment ends at the first `*/`, wherever it comes from. Text made fit for a comment has none
(`closings_comment`), and none arises where it is joined to what stands around it in a comment, as
there is a blank or the end of a line on either side. So documentation and notes, whatever they say,
are one comment each, closed at its end and nowhere before (`comments_close`).
-/

namespace ApiTypes.Reading

open Text

/-- In how many places of a text `*/` stands. -/
def closings (text : List Char) : Nat :=
  text.tails.countP ['*', '/'].isPrefixOf

/-- A text that is one block comment: opened at its start, and closed at its end only. -/
structure BlockComment (text : String) : Prop where
  around : ∃ inside, text = "/*" ++ inside ++ "*/"
  once : closings text.toList = 1

/-! ## Texts joined -/

theorem closings_nil : closings [] = 0 :=
  rfl

theorem closings_cons (c : Char) (rest : List Char) : closings (c :: rest) =
    closings rest + if c = '*' ∧ rest.head? = some '/' then 1 else 0 := by
  have starts : ['*', '/'].isPrefixOf (c :: rest) = true ↔ c = '*' ∧ rest.head? = some '/' := by
    cases rest with
    | nil => simp
    | cons d more => simp [@eq_comm _ '*' c, @eq_comm _ '/' d]
  simp only [closings, List.tails, List.countP_cons, starts]

/-- Where two texts are joined no comment is closed, unless the one ends in a star and the other
starts with a slash. -/
theorem closings_append {a b : List Char} (apart : a.getLast? ≠ some '*' ∨ b.head? ≠ some '/') :
    closings (a ++ b) = closings a + closings b := by
  induction a with
  | nil => rw [List.nil_append, closings_nil, Nat.zero_add]
  | cons c rest ih =>
    rw [List.cons_append, closings_cons, closings_cons]
    cases rest with
    | nil =>
      have joint : ¬(c = '*' ∧ b.head? = some '/') := by
        rintro ⟨rfl, slash⟩
        exact apart.elim (· rfl) (· slash)
      simp [joint, closings_nil]
    | cons d more =>
      rw [List.getLast?_cons_cons] at apart
      rw [ih apart, List.cons_append, List.head?_cons, List.head?_cons]
      omega

/-- Text made fit for a comment does not close it. -/
theorem closings_commentChars (text : List Char) : closings (commentChars text) = 0 := by
  fun_induction commentChars text with
  | case1 => rfl
  | case2 rest ih => simp [closings_cons, ih]
  | case3 c rest closing ih =>
    have open_ : ¬(c = '*' ∧ (commentChars rest).head? = some '/') := by
      rintro ⟨rfl, slash⟩
      refine absurd slash (head_commentChars fun h => ?_)
      obtain ⟨more, rfl⟩ := List.head?_eq_some_iff.1 h
      exact closing more rfl rfl
    rw [closings_cons, ih, if_neg open_]

theorem closings_comment (text : String) : closings (comment text).toList = 0 := by
  rw [comment, String.toList_ofList]
  exact closings_commentChars text.toList

/-- A text behind which a comment is as open as before it. -/
def Passes (text : String) : Prop :=
  ∀ behind, closings (text.toList ++ behind) = closings behind

theorem Passes.append {a b : String} (ha : Passes a) (hb : Passes b) : Passes (a ++ b) := by
  intro behind
  rw [String.toList_append, List.append_assoc, ha, hb]

theorem passes_indentation (depth : Nat) : Passes (indentation depth) := by
  intro behind
  rw [indentation, String.toList_ofList]
  induction 2 * depth with
  | zero => rfl
  | succ n ih => simp [List.replicate_succ, closings_cons, ih]

/-- What starts a comment or one of its lines passes, as a blank or the end of the line stands
behind the star. -/
theorem passes_opening : ∀ text ∈ ["/** ", "/**\n", " *\n", " * "], Passes text := by
  intro text hm behind
  simp only [List.mem_cons, List.not_mem_nil, or_false] at hm
  rcases hm with rfl | rfl | rfl | rfl <;> simp [closings_cons]

theorem passes_line {line : String} (h : closings line.toList = 0) : Passes (line ++ "\n") := by
  intro behind
  have apart : ('\n' :: behind).head? ≠ some '/' := by simp
  rw [String.toList_append, List.append_assoc]
  change closings (line.toList ++ '\n' :: behind) = _
  rw [closings_append (.inr apart), h, closings_cons]
  simp

/-- A blank keeps what stands before it from the end of the comment. -/
theorem closings_closed {text : String} (h : closings text.toList = 0) :
    closings (text ++ " */").toList = 1 := by
  have apart : " */".toList.head? ≠ some '/' := by decide
  rw [String.toList_append, closings_append (.inr apart), h]
  rfl

/-! ## Documentation and notes -/

theorem closings_lines {doc : Doc} (tags : ∀ tag ∈ doc.tags, closings tag.1.toList = 0) :
    ∀ line ∈ doc.lines, closings line.toList = 0 := by
  intro line hm
  rcases List.mem_append.1 hm with hm | hm
  · obtain ⟨text, -, rfl⟩ := List.mem_map.1 hm
    exact closings_comment text
  · obtain ⟨⟨tag, value⟩, ht, rfl⟩ := List.mem_map.1 hm
    have named : closings ("@" ++ tag).toList = 0 := by
      rw [String.toList_append]
      change closings ('@' :: tag.toList) = 0
      rw [closings_cons, tags _ ht]
      simp
    dsimp only
    split
    · exact named
    · have apart : (' ' :: (comment value).toList).head? ≠ some '/' := by simp
      rw [String.append_assoc, String.toList_append, @String.toList_append " " _]
      change closings (("@" ++ tag).toList ++ ' ' :: (comment value).toList) = 0
      rw [closings_append (.inr apart), named, closings_cons, closings_comment]
      simp

theorem passes_lineTexts {lines : List String} (h : ∀ line ∈ lines, closings line.toList = 0)
    (depth : Nat) : Passes (String.join (lines.map (Doc.lineText (indentation depth)))) := by
  induction lines with
  | nil => exact fun _ => rfl
  | cons line rest ih =>
    have later := ih fun text hm => h text (List.mem_cons_of_mem _ hm)
    have first : Passes (Doc.lineText (indentation depth) line) := by
      have blanks := passes_indentation depth
      unfold Doc.lineText
      split
      · exact blanks.append (passes_opening _ (by decide))
      · rw [String.append_assoc]
        exact (blanks.append (passes_opening _ (by decide))).append
          (passes_line (h line List.mem_cons_self))
    rw [List.map_cons, String.join_cons]
    exact first.append later

/-- The comment without what stands before and behind it. -/
theorem blockComment_commentText {lines : List String}
    (h : ∀ line ∈ lines, closings line.toList = 0) (depth : Nat) :
    ∃ comment, BlockComment comment ∧
      Doc.commentText depth lines = indentation depth ++ comment ++ "\n" := by
  unfold Doc.commentText
  dsimp only
  split
  · rename_i line
    have text := h line (List.mem_singleton_self line)
    have opened : closings ("/** " ++ line).toList = 0 := by
      rw [String.toList_append, passes_opening _ (by decide), text]
    refine ⟨"/** " ++ line ++ " */", ⟨⟨"* " ++ line ++ " ", ?_⟩, closings_closed opened⟩, ?_⟩ <;>
      simp [← String.toList_inj]
  · have inside := (passes_opening "/**\n" (by decide)).append
      ((passes_lineTexts h depth).append (passes_indentation depth))
    have opened := inside []
    rw [List.append_nil, closings_nil] at opened
    refine ⟨_, ⟨⟨"*\n" ++ String.join (lines.map (Doc.lineText (indentation depth))) ++
      indentation depth ++ " ", ?_⟩, closings_closed opened⟩, ?_⟩ <;> simp [← String.toList_inj]

theorem blockComment_note (note : String) :
    BlockComment ("/* " ++ comment note ++ " */") := by
  have opened : closings ("/* " ++ comment note).toList = 0 := by
    rw [String.toList_append]
    change closings ('/' :: '*' :: ' ' :: (comment note).toList) = 0
    simp [closings_cons, closings_comment]
  refine ⟨⟨" " ++ comment note ++ " ", ?_⟩, closings_closed opened⟩
  simp [← String.toList_inj]

/-- What passes before a comment and what stands apart behind it do not close it once more. -/
theorem BlockComment.once_within {comment before behind : String} (block : BlockComment comment)
    (hb : Passes before) (apart : behind.toList.head? ≠ some '/')
    (open_ : closings behind.toList = 0) :
    closings (before ++ comment ++ behind).toList = 1 := by
  rw [String.append_assoc, String.toList_append, hb, String.toList_append,
    closings_append (.inr apart), block.once, open_]

/-- Documentation of anything but nothing, under any indentation, is one block comment with the
indentation before it and the end of the line behind it, whatever its prose and the values of its
tags are. So is what is said about an unknown type. In both texts `*/` stands once. -/
theorem comments_close (depth : Nat) :
    (∀ doc : Doc, doc.isEmpty = false → (∀ tag ∈ doc.tags, closings tag.1.toList = 0) →
      ∃ comment, BlockComment comment ∧
        Doc.toText depth (some doc) = indentation depth ++ comment ++ "\n" ∧
        closings (Doc.toText depth (some doc)).toList = 1) ∧
    ∀ note, ∃ comment, BlockComment comment ∧
      (TypeExpr.unknown (some note)).toText depth = "unknown " ++ comment ∧
      closings ((TypeExpr.unknown (some note)).toText depth).toList = 1 := by
  constructor
  · intro doc nonempty tags
    obtain ⟨comment, block, text⟩ := blockComment_commentText (closings_lines tags) depth
    have printed : Doc.toText depth (some doc) = indentation depth ++ comment ++ "\n" := by
      simp [Doc.toText, nonempty, text]
    refine ⟨comment, block, printed, ?_⟩
    rw [printed]
    exact block.once_within (passes_indentation depth) (by decide) rfl
  · intro note
    have block := blockComment_note note
    have printed : (TypeExpr.unknown (some note)).toText depth =
        "unknown " ++ ("/* " ++ comment note ++ " */") := by
      simp [TypeExpr.toText, ← String.toList_inj]
    have opening : Passes "unknown " := by
      intro behind
      simp [closings_cons]
    refine ⟨_, block, printed, ?_⟩
    rw [printed, ← @String.append_empty ("unknown " ++ _)]
    exact block.once_within opening (by decide) rfl

/-- Prose and values that would end a comment, or would with what is printed around them. -/
def starredDoc : Doc where
  summary := ["*/ **/ */*/", "", "/", "*"]
  tags := [("deprecated", ""), ("pattern", "/.*/")]

theorem comments_close_starredDoc :
    starredDoc.isEmpty = false ∧ (∀ tag ∈ starredDoc.tags, closings tag.1.toList = 0) ∧
      ∃ comment, BlockComment comment ∧
        Doc.toText 1 (some starredDoc) = indentation 1 ++ comment ++ "\n" ∧
        closings (Doc.toText 1 (some starredDoc)).toList = 1 := by
  have nonempty : starredDoc.isEmpty = false := by decide
  have tags : ∀ tag ∈ starredDoc.tags, closings tag.1.toList = 0 := by decide
  exact ⟨nonempty, tags, (comments_close 1).1 starredDoc nonempty tags⟩

end ApiTypes.Reading
