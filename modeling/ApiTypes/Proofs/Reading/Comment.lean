import ApiTypes.Proofs.Reading.Lexer
import ApiTypes.Proofs.Typing.Preserved
import ApiTypes.TypeExpr.Printer

/-!
# Comments

No text gets out of the comment it is printed in: what is read behind the start of a comment stays
within it (`commentText_comment`), so notes and documentation give no tokens (`runs_note`,
`runs_doc`).
-/

namespace ApiTypes.Reading

/-- Within a comment, where the last character may be one that its end starts with. -/
def Within (mode : Mode) : Prop :=
  mode = .comment ∨ mode = .star

/-- A text that stays within the comment it stands in. -/
def CommentText (text : String) : Prop :=
  ∃ last, Within last ∧ Runs .comment text [] last

/-- A character that does not end the comment. -/
def Mode.within (c : Char) : Mode :=
  if c = '*' then .star else .comment

theorem step?_comment (c : Char) : Mode.comment.step? c = some ([], .within c) :=
  rfl

theorem step?_star {c : Char} (h : c ≠ '/') : Mode.star.step? c = some ([], .within c) := by
  simp [Mode.step?, Mode.within, h]

/-- Behind a star, what does not go on with a slash is read as anywhere in the comment. -/
theorem run_star {c : Char} {rest : List Char} (h : c ≠ '/') :
    run .star (c :: rest) = run .comment (c :: rest) := by
  rw [run, run, step?_star h, step?_comment]

theorem head_commentChars {text : List Char} (h : text.head? ≠ some '/') :
    (Text.commentChars text).head? ≠ some '/' := by
  fun_cases Text.commentChars text with
  | case1 => simp
  | case2 rest => simp
  | case3 c rest => simpa using h

/-- Nothing but backslashes is added. -/
theorem mem_commentChars {c : Char} (other : c ≠ '\\') (text : List Char) :
    c ∈ Text.commentChars text ↔ c ∈ text := by
  fun_induction Text.commentChars text with
  | case1 => rfl
  | case2 rest ih => simp [other, ih]
  | case3 d rest closing ih => simp [ih]

theorem run_commentChars (text : List Char) :
    ∃ last, Within last ∧ run .comment (Text.commentChars text) = some ([], last) := by
  fun_induction Text.commentChars text with
  | case1 => exact ⟨.comment, .inl rfl, rfl⟩
  | case2 rest ih =>
    obtain ⟨last, hl, hr⟩ := ih
    refine ⟨last, hl, ?_⟩
    simp [run, Mode.step?, hr]
  | case3 c rest closing ih =>
    obtain ⟨last, hl, hr⟩ := ih
    by_cases hc : c = '*'
    · subst hc
      have head : (Text.commentChars rest).head? ≠ some '/' := head_commentChars fun h => by
        obtain ⟨rest', rfl⟩ := List.head?_eq_some_iff.1 h
        exact closing rest' rfl rfl
      cases hrest : Text.commentChars rest with
      | nil => exact ⟨.star, .inr rfl, rfl⟩
      | cons d later =>
        rw [hrest] at head hr
        have behind : run .star (d :: later) = some ([], last) := by
          rw [run_star fun h => head (by rw [h]; rfl), hr]
        refine ⟨last, hl, ?_⟩
        rw [run, step?_comment]
        simp [Mode.within, behind]
    · refine ⟨last, hl, ?_⟩
      rw [run, step?_comment]
      simp [Mode.within, hc, hr]

/-- Any text made fit for a comment stays within it. -/
theorem commentText_comment (text : String) : CommentText (Text.comment text) := by
  obtain ⟨last, hl, hr⟩ := run_commentChars text.toList
  refine ⟨last, hl, ?_⟩
  unfold Runs Text.comment
  rw [String.toList_ofList]
  exact hr

theorem CommentText.append {a b : String} (ha : Runs .comment a [] .comment) (hb : CommentText b) :
    CommentText (a ++ b) := by
  obtain ⟨last, hl, hr⟩ := hb
  exact ⟨last, hl, ha.skip hr⟩

/-- A blank or the end of a line leaves the star behind. -/
theorem Within.runs {mode last : Mode} {tokens : List Token} {text : String} (h : Within mode)
    (hd : Delimited text) (hne : text ≠ "") (hr : Runs .comment text tokens last) :
    Runs mode text tokens last := by
  rcases h with rfl | rfl
  · exact hr
  · unfold Runs Delimited at *
    cases ht : text.toList with
    | nil => exact absurd (String.toList_inj.1 ht) hne
    | cons c rest =>
      rw [ht] at hr hd
      have delimiter : c ∈ delimiters := hd c rfl
      have slash : c ≠ '/' := by
        rintro rfl
        revert delimiter
        decide
      rwa [run_star slash]

theorem CommentText.runs {a b : String} {tokens : List Token} {last : Mode} (ha : CommentText a)
    (hd : Delimited b) (hne : b ≠ "") (hb : Runs .comment b tokens last) :
    Runs .comment (a ++ b) tokens last := by
  obtain ⟨mid, hm, hr⟩ := ha
  exact hr.skip (hm.runs hd hne hb)

/-! ## Notes and documentation -/

theorem runs_indentation {mode : Mode} (h : mode.step? ' ' = some ([], mode)) (depth : Nat) :
    Runs mode (Text.indentation depth) [] mode := by
  have all (n : Nat) : run mode (List.replicate n ' ') = some ([], mode) := by
    induction n with
    | zero => rfl
    | succ n ih => simp [List.replicate_succ, run, h, ih]
  unfold Runs Text.indentation
  rw [String.toList_ofList]
  exact all _

/-- A note gives no tokens. -/
theorem runs_note (note : String) :
    Runs .between (" /* " ++ Text.comment note ++ " */") [] .between := by
  have opening : Runs .between " /* " [] .comment := by decide
  have closing : Runs .comment " */" [] .between := by decide
  rw [String.append_assoc]
  exact opening.skip ((commentText_comment note).runs (by decide) (by decide) closing)

theorem commentText_lines {doc : Doc} (h : Typing.Documented (some doc)) :
    ∀ line ∈ doc.lines, CommentText line := by
  have tags : ∀ tag ∈ "deprecated" :: Schema.taggedKeywords,
      Runs .comment ("@" ++ tag) [] .comment ∧ Runs .comment ("@" ++ tag ++ " ") [] .comment := by
    decide
  intro line hm
  rcases List.mem_append.1 hm with hm | hm
  · obtain ⟨text, -, rfl⟩ := List.mem_map.1 hm
    exact commentText_comment text
  · obtain ⟨⟨tag, value⟩, ht, rfl⟩ := List.mem_map.1 hm
    obtain ⟨alone, before⟩ := tags tag (List.mem_cons.2 (h doc rfl (tag, value) ht))
    dsimp only
    split
    · exact ⟨.comment, .inl rfl, alone⟩
    · exact CommentText.append before (commentText_comment value)

theorem runs_lineText {line : String} (h : CommentText line) (depth : Nat) :
    Runs .comment (Doc.lineText (Text.indentation depth) line) [] .comment := by
  have blanks : Runs .comment (Text.indentation depth) [] .comment := runs_indentation rfl depth
  have ending : Runs .comment "\n" [] .comment := by decide
  unfold Doc.lineText
  split
  · exact blanks.skip (by decide)
  · have star : Runs .comment " * " [] .comment := by decide
    rw [String.append_assoc]
    exact (blanks.skip star).skip (h.runs (by decide) (by decide) ending)

theorem runs_lineTexts {lines : List String} (h : ∀ line ∈ lines, CommentText line) (depth : Nat) :
    Runs .comment (String.join (lines.map (Doc.lineText (Text.indentation depth)))) []
      .comment := by
  induction lines with
  | nil => exact Runs.nil _
  | cons line rest ih =>
    have later := ih fun text hm => h text (List.mem_cons_of_mem _ hm)
    have first := runs_lineText (h line List.mem_cons_self) depth
    rw [List.map_cons, String.join_cons]
    exact first.skip later

/-- Documentation gives no tokens. -/
theorem runs_doc {doc : Option Doc} (h : Typing.Documented doc) (depth : Nat) :
    Runs .between (Doc.toText depth doc) [] .between := by
  unfold Doc.toText
  cases doc with
  | none => exact Runs.nil _
  | some doc =>
    dsimp only
    split
    · exact Runs.nil _
    · have lines := commentText_lines h
      have outside : Runs .between (Text.indentation depth) [] .between := runs_indentation rfl depth
      have inside : Runs .comment (Text.indentation depth) [] .comment := runs_indentation rfl depth
      unfold Doc.commentText
      dsimp only
      split
      · rename_i line hl
        have opening : Runs .between "/** " [] .comment := by decide
        have closing : Runs .comment " */\n" [] .between := by decide
        have text := lines line (by rw [hl]; exact List.mem_singleton_self line)
        rw [String.append_assoc]
        exact (outside.skip opening).skip (text.runs (by decide) (by decide) closing)
      · have opening : Runs .between "/**\n" [] .comment := by decide
        have closing : Runs .comment " */\n" [] .between := by decide
        exact (((outside.skip opening).skip (runs_lineTexts lines depth)).skip inside).skip closing

end ApiTypes.Reading
