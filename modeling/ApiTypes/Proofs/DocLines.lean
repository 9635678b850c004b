import ApiTypes.Proofs.Escapes
import ApiTypes.Proofs.Lists
import ApiTypes.Proofs.OneLine
import ApiTypes.Proofs.Reading.Comment
import ApiTypes.TypeExpr.Printer

/-!
# Documentation line by line

A comment of several things takes a line for each of them, between a line that opens it and one that
closes it, and a comment of one thing is a single line (`LaidOut`). That is so exactly when none of
the things said breaks the line (`laidOut_iff`), so of what a schema says about itself, exactly when
its title, format and pattern do not (`documentation_laidOut_iff`). The title is not cut into lines
as the description is, and breaks the layout if it has several (`title_breaks_layout`).
-/

namespace ApiTypes

open Text

/-! ## Lines of a text -/

/-- The lines of a printed text. -/
def textLines (text : String) : List String :=
  (lines text.toList).map String.ofList

/-- What line feeds cut a text into. -/
def cut (text : String) : List String :=
  (pieces (· == '\n') text.toList).map String.ofList

theorem cut_append (a b : String) : cut (a ++ "\n" ++ b) = cut a ++ cut b := by
  have ended : (a ++ "\n" ++ b).toList = a.toList ++ '\n' :: b.toList := by simp
  rw [cut, ended, pieces_join (by decide), List.map_append, cut, cut]

/-- The last line feed ends a line, and nothing follows it. -/
theorem textLines_ended (text : String) : textLines (text ++ "\n") = cut text := by
  have ended : (text ++ "\n").toList = text.toList ++ ['\n'] := by simp
  have behind : pieces (· == '\n') (text.toList ++ ['\n']) =
      pieces (· == '\n') text.toList ++ [[]] := pieces_join (by decide) _ []
  rw [textLines, lines, ended, behind, cut]
  simp

theorem cut_of_oneLine {text : String} (h : OneLine text) : cut text = [text] := by
  have free : ∀ c ∈ text.toList, (c == '\n') = false := by
    intro c hm
    rw [beq_eq_false_iff_ne]
    rintro rfl
    exact h hm
  rw [cut, pieces_of_free free, List.map_singleton, String.ofList_toList]

theorem length_cut (text : String) : (cut text).length = text.toList.count '\n' + 1 := by
  rw [cut, List.length_map]
  induction text.toList with
  | nil => rfl
  | cons c rest ih =>
    rw [pieces, List.count_cons]
    split
    · rw [List.length_cons, ih]
    · rw [List.length_modifyHead, ih]

theorem length_cut_eq_one_iff {text : String} : (cut text).length = 1 ↔ OneLine text := by
  rw [length_cut, Nat.add_eq_right, List.count_eq_zero, OneLine]

/-! ## Layout -/

/-- The lines of a comment that says so many things. One thing stands on the line of the comment;
otherwise each has its own line, which starts with the indentation and a star, between a line that
opens the comment and one that closes it. -/
inductive LaidOut (depth : Nat) : Nat → List String → Prop
  | single (said : String) : LaidOut depth 1 [indentation depth ++ "/** " ++ said ++ " */"]
  | block {between : List String} (several : between.length ≠ 1)
      (starred : ∀ line ∈ between, ∃ said, line = indentation depth ++ " *" ++ said) :
      LaidOut depth between.length
        ((indentation depth ++ "/**") :: between ++ [indentation depth ++ " */"])

theorem LaidOut.length {depth count : Nat} {texts : List String} (h : LaidOut depth count texts) :
    texts.length = if count = 1 then 1 else count + 2 := by
  cases h with
  | single said => rfl
  | block several starred =>
    rw [if_neg several]
    simp

/-- The line of one of several things said. -/
def starredLine (depth : Nat) (entry : String) : String :=
  indentation depth ++ " *" ++ if entry.isEmpty then "" else " " ++ entry

theorem lineText_eq (depth : Nat) (entry : String) :
    Doc.lineText (indentation depth) entry = starredLine depth entry ++ "\n" := by
  unfold Doc.lineText starredLine
  split <;> simp [← String.toList_inj]

theorem oneLine_indentation (depth : Nat) : OneLine (indentation depth) := by
  simp [indentation, oneLine_ofList, List.mem_replicate]

theorem oneLine_starredLine {depth : Nat} {entry : String} :
    OneLine (starredLine depth entry) ↔ OneLine entry := by
  have starred : OneLine (indentation depth ++ " *") :=
    oneLine_append.2 ⟨oneLine_indentation depth, by decide⟩
  have behind : OneLine (if entry.isEmpty then "" else " " ++ entry) ↔ OneLine entry := by
    split
    · rename_i empty
      rw [String.isEmpty_iff.1 empty]
    · have blank : OneLine " " := by decide
      rw [oneLine_append, and_iff_right blank]
  rw [starredLine, oneLine_append, and_iff_right starred, behind]

theorem cut_lineTexts (depth : Nat) (entries : List String) (behind : String) :
    cut (String.join (entries.map (Doc.lineText (indentation depth))) ++ behind) =
      entries.flatMap (fun entry => cut (starredLine depth entry)) ++ cut behind := by
  induction entries with
  | nil => simp
  | cons entry rest ih =>
    rw [List.map_cons, String.join_cons, lineText_eq, String.append_assoc, cut_append, ih,
      List.flatMap_cons, List.append_assoc]

theorem textLines_single (depth : Nat) (entry : String) :
    textLines (Doc.commentText depth [entry]) =
      cut (indentation depth ++ "/** " ++ entry ++ " */") := by
  rw [← textLines_ended]
  congr 1
  simp [Doc.commentText, ← String.toList_inj]

theorem textLines_block {depth : Nat} {entries : List String} (several : entries.length ≠ 1) :
    textLines (Doc.commentText depth entries) = (indentation depth ++ "/**") ::
      entries.flatMap (fun entry => cut (starredLine depth entry)) ++
        [indentation depth ++ " */"] := by
  have opening : OneLine (indentation depth ++ "/**") :=
    oneLine_append.2 ⟨oneLine_indentation depth, by decide⟩
  have closing : OneLine (indentation depth ++ " */") :=
    oneLine_append.2 ⟨oneLine_indentation depth, by decide⟩
  have printed : Doc.commentText depth entries = indentation depth ++ "/**" ++ "\n" ++
      (String.join (entries.map (Doc.lineText (indentation depth))) ++
        (indentation depth ++ " */")) ++ "\n" := by
    unfold Doc.commentText
    dsimp only
    split
    · exact absurd rfl several
    · simp [← String.toList_inj]
  rw [printed, textLines_ended, cut_append, cut_lineTexts, cut_of_oneLine opening,
    cut_of_oneLine closing]
  rfl

theorem laidOut_single_iff {depth : Nat} {entry : String} :
    LaidOut depth 1 (textLines (Doc.commentText depth [entry])) ↔ OneLine entry := by
  have opening : OneLine (indentation depth ++ "/** ") :=
    oneLine_append.2 ⟨oneLine_indentation depth, by decide⟩
  have closing : OneLine " */" := by decide
  have line : OneLine (indentation depth ++ "/** " ++ entry ++ " */") ↔ OneLine entry := by
    rw [oneLine_append, oneLine_append, and_iff_right opening, and_iff_left closing]
  rw [textLines_single, ← line]
  constructor
  · intro laid
    exact length_cut_eq_one_iff.1 laid.length
  · intro whole
    rw [cut_of_oneLine whole]
    exact .single entry

theorem flatMap_cut_starredLine {depth : Nat} {entries : List String}
    (whole : ∀ entry ∈ entries, OneLine entry) :
    entries.flatMap (fun entry => cut (starredLine depth entry)) =
      entries.map (starredLine depth) := by
  rw [← List.flatMap_pure_eq_map]
  exact List.flatMap_congr fun entry hm =>
    cut_of_oneLine (oneLine_starredLine.2 (whole entry hm))

/-- Every entry takes at least a line. So where there are no more lines than entries, each takes
one. -/
theorem oneLine_of_length_flatMap {depth : Nat} {entries : List String}
    (count : (entries.flatMap fun entry => cut (starredLine depth entry)).length ≤
      entries.length) : ∀ entry ∈ entries, OneLine entry := by
  intro entry hm
  have least : ∀ entry ∈ entries, 1 ≤ (cut (starredLine depth entry)).length := by
    intro entry _
    rw [length_cut]
    exact Nat.le_add_left 1 _
  have each := length_eq_one_of_length_flatMap least count entry hm
  exact oneLine_starredLine.1 (length_cut_eq_one_iff.1 each)

theorem laidOut_block_iff {depth : Nat} {entries : List String} (several : entries.length ≠ 1) :
    LaidOut depth entries.length (textLines (Doc.commentText depth entries)) ↔
      ∀ entry ∈ entries, OneLine entry := by
  rw [textLines_block several]
  constructor
  · intro laid
    have count := laid.length
    rw [if_neg several] at count
    simp only [List.cons_append, List.length_cons, List.length_append, List.length_nil] at count
    have few : (entries.flatMap fun entry => cut (starredLine depth entry)).length ≤
        entries.length := by omega
    exact oneLine_of_length_flatMap few
  · intro whole
    have starred : ∀ line ∈ entries.map (starredLine depth),
        ∃ said, line = indentation depth ++ " *" ++ said := by
      intro line hm
      obtain ⟨entry, -, rfl⟩ := List.mem_map.1 hm
      exact ⟨_, rfl⟩
    have laid := LaidOut.block (by rwa [List.length_map]) starred
    rwa [List.length_map, ← flatMap_cut_starredLine whole] at laid

/-- A comment is laid out line by line exactly if nothing it says breaks the line. -/
theorem laidOut_commentText_iff {depth : Nat} {entries : List String} :
    LaidOut depth entries.length (textLines (Doc.commentText depth entries)) ↔
      ∀ entry ∈ entries, OneLine entry := by
  by_cases one : entries.length = 1
  · obtain ⟨entry, rfl⟩ := List.length_eq_one_iff.1 one
    rw [List.forall_mem_singleton]
    exact laidOut_single_iff
  · exact laidOut_block_iff one

/-! ## Documentation -/

theorem oneLine_comment {text : String} : OneLine (comment text) ↔ OneLine text := by
  rw [comment, oneLine_ofList, Reading.mem_commentChars (by decide), OneLine]

theorem oneLine_lines_iff {doc : Doc} (named : ∀ tag ∈ doc.tags, OneLine tag.1) :
    (∀ entry ∈ doc.lines, OneLine entry) ↔ doc.OneLined := by
  have tagged : ∀ tag ∈ doc.tags, (OneLine (if tag.2.isEmpty then "@" ++ tag.1
      else "@" ++ tag.1 ++ " " ++ comment tag.2) ↔ OneLine tag.2) := by
    intro tag hm
    have name : OneLine ("@" ++ tag.1) := oneLine_append.2 ⟨by decide, named tag hm⟩
    split
    · rename_i empty
      rw [String.isEmpty_iff.1 empty]
      exact iff_of_true name (by decide)
    · have opening : OneLine ("@" ++ tag.1 ++ " ") := oneLine_append.2 ⟨name, by decide⟩
      rw [oneLine_append, and_iff_right opening, oneLine_comment]
  simp only [Doc.lines, List.forall_mem_append, List.forall_mem_map]
  constructor
  · rintro ⟨summary, tags⟩
    exact ⟨fun line hm => oneLine_comment.1 (summary line hm),
      fun tag hm => (tagged tag hm).1 (tags tag hm)⟩
  · rintro ⟨summary, tags⟩
    exact ⟨fun line hm => oneLine_comment.2 (summary line hm),
      fun tag hm => (tagged tag hm).2 (tags tag hm)⟩

theorem laidOut_iff {doc : Doc} (nonempty : doc.isEmpty = false)
    (named : ∀ tag ∈ doc.tags, OneLine tag.1) (depth : Nat) :
    LaidOut depth (doc.summary.length + doc.tags.length)
        (textLines (Doc.toText depth (some doc))) ↔ doc.OneLined := by
  have count : doc.summary.length + doc.tags.length = doc.lines.length := by
    simp [Doc.lines]
  rw [Doc.toText, nonempty, if_neg Bool.false_ne_true, count, laidOut_commentText_iff,
    oneLine_lines_iff named]

theorem nonempty_of_doc? {node : Json} {doc : Doc} (h : Schema.doc? node = some doc) :
    doc.isEmpty = false ∧ ∀ tag ∈ doc.tags, OneLine tag.1 := by
  have tags : ∀ tag ∈ "deprecated" :: Schema.taggedKeywords, OneLine tag := by decide
  constructor
  · unfold Schema.doc? Doc.nonempty? at h
    split at h
    · cases h
    · rename_i said
      cases h
      exact Bool.eq_false_iff.2 said
  · intro tag hm
    exact tags tag.1 (List.mem_cons.2 (Typing.documented_doc? node doc h tag hm))

/-- What a schema says about itself is laid out line by line, under any indentation, exactly if no
entry of its documentation breaks the line, and that is so exactly if its title and the texts of its
format and pattern do not: descriptions are cut into lines, and all other values stand as JSON
text. -/
theorem documentation_laidOut_iff {node : Json} {doc : Doc} (h : Schema.doc? node = some doc)
    (depth : Nat) :
    (LaidOut depth (doc.summary.length + doc.tags.length)
      (textLines (Doc.toText depth (some doc))) ↔ doc.OneLined) ∧
    (doc.OneLined ↔ Schema.OneLined node) := by
  obtain ⟨nonempty, named⟩ := nonempty_of_doc? h
  exact ⟨laidOut_iff nonempty named depth, Schema.oneLined_doc?_iff h⟩

/-- A title of one line, a description of two and a default of two. -/
def describedSchema : Json :=
  .object [("title", .string "Pet"), ("description", .string "An animal.\r\nNot wild.\n"),
    ("deprecated", .bool true), ("pattern", .string ".*"), ("default", .string "a\nb")]

theorem documentation_laidOut_iff_describedSchema :
    ∃ doc, Schema.doc? describedSchema = some doc ∧
      textLines (Doc.toText 1 (some doc)) = ["  /**", "   * Pet", "   * An animal.",
        "   * Not wild.", "   * @deprecated", "   * @default \"a\\nb\"", "   * @pattern .*",
        "   */"] ∧
      (LaidOut 1 (doc.summary.length + doc.tags.length)
        (textLines (Doc.toText 1 (some doc))) ↔ doc.OneLined) ∧
      (doc.OneLined ↔ Schema.OneLined describedSchema) ∧
      LaidOut 1 (doc.summary.length + doc.tags.length) (textLines (Doc.toText 1 (some doc))) := by
  obtain ⟨doc, h⟩ : ∃ doc, Schema.doc? describedSchema = some doc := ⟨_, rfl⟩
  have lines : (Schema.doc? describedSchema).map (fun doc => textLines (Doc.toText 1 (some doc))) =
      some ["  /**", "   * Pet", "   * An animal.", "   * Not wild.", "   * @deprecated",
        "   * @default \"a\\nb\"", "   * @pattern .*", "   */"] := by
    decide +kernel
  rw [h] at lines
  have texts : Schema.OneLined describedSchema := by
    intro keyword hk text found
    simp only [List.mem_cons, List.not_mem_nil, or_false] at hk
    rcases hk with rfl | rfl | rfl <;> cases found <;> decide
  obtain ⟨laid, said⟩ := documentation_laidOut_iff h 1
  exact ⟨doc, h, Option.some.inj lines, laid, said, laid.2 (said.2 texts)⟩

/-- A schema whose title has two lines. -/
def longTitle : Json :=
  .object [("title", .string "A pet.\nNot wild."), ("type", .string "string")]

/-- The title is one entry and takes two lines. -/
theorem title_breaks_layout :
    ∃ doc, Schema.doc? longTitle = some doc ∧ doc.summary = ["A pet.\nNot wild."] ∧ doc.tags = [] ∧
      Doc.toText 0 (some doc) = "/** A pet.\nNot wild. */\n" ∧ ¬doc.OneLined ∧
      ¬LaidOut 0 (doc.summary.length + doc.tags.length) (textLines (Doc.toText 0 (some doc))) := by
  have broken : ¬Doc.OneLined ⟨["A pet.\nNot wild."], []⟩ := by
    intro h
    exact absurd (h.summary _ List.mem_cons_self) (by decide)
  refine ⟨⟨["A pet.\nNot wild."], []⟩, by decide +kernel, rfl, rfl, by decide +kernel, broken, ?_⟩
  exact fun laid => broken ((laidOut_iff rfl (by decide) 0).1 laid)

end ApiTypes
