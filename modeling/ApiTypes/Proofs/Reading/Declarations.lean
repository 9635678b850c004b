import ApiTypes.Compile
import ApiTypes.Proofs.Api.Closure
import ApiTypes.Proofs.Reading.Types

/-!
# Reading declarations back

The text of an assembly says what its declarations say (`read_print`): it is read as their names
in order, each with a type that agrees with the declared one.
-/

namespace ApiTypes.Reading

open Text

/-- Tokens that are read as a declaration. -/
structure DeclarationTokens (tokens : List Token) (name : String) (type : TypeExpr) : Prop where
  nonempty : tokens ≠ []
  reads : ∀ depth rest, tokens.length ≤ depth →
    declaration depth (tokens ++ rest) = some ((name, type), rest)

theorem DeclarationTokens.interface {groups : List (List Token × Member)} (name : String)
    (h : ∀ group ∈ groups, MemberTokens group.1 group.2) :
    DeclarationTokens
      (.word "export" :: .word "interface" :: .word name :: .mark '\x7b' ::
        groups.flatMap (·.1) ++ [.mark '\x7d']) name (.object (groups.map (·.2))) where
  nonempty := by simp
  reads depth rest hd := by
    have count := count_le_flatMap h
    simp only [List.length_append, List.length_cons, List.length_nil] at hd
    have inside := members_read h depth (groups.flatMap (·.1) ++ .mark '\x7d' :: rest).length rest
      (by omega) (by simp only [List.length_append, List.length_cons]; omega)
    rw [List.append_assoc]
    simp only [List.cons_append, List.nil_append, declaration, after?_mark, and_self, ↓reduceIte,
      Option.bind_eq_bind, Option.bind_some, inside]
    rfl

theorem DeclarationTokens.alias {tokens : List Token} {type : TypeExpr} (name : String)
    (h : Whole tokens type) :
    DeclarationTokens
      (.word "export" :: .word "type" :: .word name :: .mark '=' :: tokens ++ [.mark ';']) name
      type where
  nonempty := by simp
  reads depth rest hd := by
    simp only [List.length_append, List.length_cons, List.length_nil] at hd
    have inside := h.reads depth (.mark ';' :: rest) (by omega) rfl rfl rfl
    simp [declaration, after?_mark, inside]

theorem declarations_read {groups : List (List Token × String × TypeExpr)}
    (h : ∀ group ∈ groups, DeclarationTokens group.1 group.2.1 group.2.2) (depth fuel : Nat)
    (hd : (groups.flatMap (·.1)).length ≤ depth) (hf : (groups.flatMap (·.1)).length ≤ fuel) :
    declarations depth fuel (groups.flatMap (·.1)) = some (groups.map (·.2)) := by
  induction groups generalizing fuel with
  | nil => cases fuel <;> rfl
  | cons first rest ih =>
    have here := h first List.mem_cons_self
    have some := List.length_pos_iff.2 here.nonempty
    rw [List.flatMap_cons, List.length_append] at hd hf
    obtain ⟨left, rfl⟩ := Nat.exists_eq_succ_of_ne_zero (n := fuel) (by omega)
    have later := ih (fun group hm => h group (List.mem_cons_of_mem _ hm)) left (by omega) (by omega)
    have step : declaration depth (first.1 ++ rest.flatMap (·.1)) = _ :=
      here.reads depth _ (by omega)
    rw [List.flatMap_cons]
    obtain ⟨token, tokens, he⟩ := List.exists_cons_of_ne_nil here.nonempty
    rw [he, List.cons_append] at step ⊢
    rw [declarations, step]
    · simp [later]
    · exact List.cons_ne_nil _ _

/-! ## Texts of declarations -/

structure PrintableDeclaration (d : Declaration) : Prop where
  name : isIdentifier d.name = true
  type : Printable d.type
  doc : Typing.Documented d.doc

/-- A text that is read as a declaration which agrees with one, and leaves nothing open. -/
def DeclarationText (text : String) (d : Declaration) : Prop :=
  ∃ tokens type, Runs .between text tokens .between ∧ DeclarationTokens tokens d.name type ∧
    Agrees d.type type

theorem declarationText_interface {d : Declaration} {inner : List Member}
    (h : PrintableDeclaration d) (ht : d.type = .object inner) :
    DeclarationText ("export interface " ++ d.name ++ " \x7b\n" ++ TypeExpr.membersText 1 inner ++
      "\x7d\n") d := by
  have opening : Runs .between "export interface " [.word "export", .word "interface"]
      .between := by decide
  have brace : Runs .between " \x7b\n" [.mark '\x7b'] .between := by decide
  have closing : Runs .between "\x7d\n" [.mark '\x7d'] .between := by decide
  have members : MembersText (TypeExpr.membersText 1 inner) inner := by
    have printable := h.type
    rw [ht] at printable
    cases printable with
    | object documented inner =>
      exact membersText_reads 1 documented fun m hm type hm' => reads_type (inner m hm type hm')
  obtain ⟨groups, hr, each, agree⟩ := members
  have named := (opening.then (lexes_word h.name)).runs (by decide) (by decide) brace
  exact ⟨_, _, (named.append hr).append closing, .interface d.name each, ht ▸ .object agree⟩

theorem declarationText_alias {d : Declaration} (h : PrintableDeclaration d) :
    DeclarationText ("export type " ++ d.name ++ " = " ++ d.type.toText 0 ++ ";\n") d := by
  have opening : Runs .between "export type " [.word "export", .word "type"] .between := by
    decide
  have equals : Runs .between " = " [.mark '='] .between := by decide
  have ending : Runs .between ";\n" [.mark ';'] .between := by decide
  obtain ⟨tokens, read, hl, hw, ha⟩ := (reads_type h.type 0).2
  have named := (opening.then (lexes_word h.name)).runs (by decide) (by decide) equals
  exact ⟨_, _, (named.then hl).runs (by decide) (by decide) ending, .alias d.name hw, ha⟩

theorem DeclarationText.documented {doc : Option Doc} {text : String} {d : Declaration}
    (hd : Typing.Documented doc) (h : DeclarationText text d) :
    DeclarationText (Doc.toText 0 doc ++ text) d := by
  obtain ⟨tokens, type, hr, ht, ha⟩ := h
  exact ⟨tokens, type, (runs_doc hd 0).skip hr, ht, ha⟩

theorem declarationText {d : Declaration} (h : PrintableDeclaration d) :
    DeclarationText d.toText d := by
  unfold Declaration.toText
  refine .documented h.doc ?_
  split
  · rename_i members ht
    exact declarationText_interface h ht
  · exact declarationText_alias h

/-! ## Texts of outputs -/

/-- Names that come with types, as declarations give them. -/
def DeclarationAgrees (d : Declaration) (entry : String × TypeExpr) : Prop :=
  entry.1 = d.name ∧ Agrees d.type entry.2

theorem runs_declarations {declarations : List Declaration}
    (h : ∀ d ∈ declarations, PrintableDeclaration d) :
    ∃ groups : List (List Token × String × TypeExpr),
      Runs .between (String.join (declarations.map fun d => "\n" ++ d.toText))
        (groups.flatMap (·.1)) .between ∧
      (∀ group ∈ groups, DeclarationTokens group.1 group.2.1 group.2.2) ∧
      List.Forall₂ DeclarationAgrees declarations (groups.map (·.2)) := by
  induction declarations with
  | nil => exact ⟨[], Runs.nil _, by simp, .nil⟩
  | cons d rest ih =>
    obtain ⟨tokens, type, hr, ht, ha⟩ := declarationText (h d List.mem_cons_self)
    obtain ⟨groups, later, each, agree⟩ := ih fun e hm => h e (List.mem_cons_of_mem _ hm)
    have line : Runs .between "\n" [] .between := by decide
    refine ⟨(tokens, d.name, type) :: groups, ?_, ?_, .cons ⟨rfl, ha⟩ agree⟩
    · rw [List.map_cons, String.join_cons]
      exact (line.skip hr).append later
    · intro group hm
      rcases List.mem_cons.1 hm with rfl | hm
      · exact ht
      · exact each group hm

/-- The text of printable declarations is read as their names and types. -/
theorem read_print {declarations : List Declaration} (rawSchema : Bool)
    (h : ∀ d ∈ declarations, PrintableDeclaration d) :
    ∃ parsed, read (Declaration.print rawSchema declarations) = some parsed ∧
      List.Forall₂ DeclarationAgrees (declarations.filter (Declaration.isPrinted rawSchema))
        parsed := by
  have printed : ∀ d ∈ declarations.filter (Declaration.isPrinted rawSchema),
      PrintableDeclaration d := fun d hm => h d (List.mem_filter.1 hm).1
  obtain ⟨groups, hr, each, agree⟩ := runs_declarations printed
  have banner : Runs .between Declaration.banner [] .between := by decide +kernel
  have text : lex (Declaration.print rawSchema declarations) = some (groups.flatMap (·.1)) :=
    (banner.skip hr).lexes
  refine ⟨groups.map (·.2), ?_, agree⟩
  unfold read
  rw [text]
  exact declarations_read each _ _ (Nat.le_refl _) (Nat.le_refl _)

/-! ## Assembled declarations -/

open Api

section
variable {index : Index} {dialect : Dialect} {rawSchema : Bool} {candidates : List Candidate}
  {state : Typing.State} {declared promoted : List Declaration}

theorem printable_operationMembers {operation : Operation}
    (shaped : ∀ entry ∈ operation.declared, TypeName entry.2) :
    Printable (.object (operationMembers operation)) := by
  unfold Operation.declared at shaped
  refine printable_object fun m hm => ?_
  rcases List.mem_append.1 hm with hm | hm
  · rcases List.mem_append.1 hm with hm | hm
    · obtain ⟨named, hn, rfl⟩ := List.mem_map.1 hm
      refine printableMember_plain (.ref (shaped (named.pointer, named.name) ?_))
      exact List.mem_append_left _ (List.mem_append_left _ (List.mem_map_of_mem hn))
    · obtain ⟨⟨body, named⟩, hn, rfl⟩ := List.mem_map.1 hm
      refine printableMember_plain (.ref (shaped (named.pointer, named.name) ?_))
      exact List.mem_append_left _ (List.mem_append_right _ (List.mem_map_of_mem hn))
  · rw [List.mem_singleton.1 hm]
    refine printableMember_plain (printable_object fun m hm => ?_)
    obtain ⟨response, hr, rfl⟩ := List.mem_map.1 hm
    refine printableMember_plain (.ref (shaped (response.written.place, response.name) ?_))
    exact List.mem_append_right _ (List.mem_map_of_mem hr)

theorem printable_wrapper {operations : List Operation}
    (shaped : ∀ operation ∈ operations, ∀ entry ∈ operation.declared, TypeName entry.2)
    (documented : ∀ operation ∈ operations, Typing.Documented operation.doc) :
    PrintableDeclaration (wrapper operations) where
  name := by
    change isIdentifier wrapperName = true
    decide
  type := by
    refine printable_object fun m hm => ?_
    obtain ⟨path, -, rfl⟩ := List.mem_map.1 hm
    refine printableMember_plain (printable_object fun m hm => ?_)
    obtain ⟨operation, ho, rfl⟩ := List.mem_map.1 hm
    have ho := (List.mem_filter.1 ho).1
    exact .inl ⟨_, _, _, _, _, rfl, printable_operationMembers (shaped operation ho),
      documented operation ho⟩
  doc := Typing.documented_none

theorem printable_assembled
    (h : Assembled index dialect rawSchema candidates state declared promoted)
    (finite : index.document.root.Finite) :
    ∀ d ∈ withWrapper rawSchema candidates (declared ++ promoted), PrintableDeclaration d := by
  have made := h.preserved (P := fun _ => Printable) (fun _ _ _ _ printable => printable)
    fun state valid => printable_preserved finite valid.names
  have shaped := h.valid.names.shaped
  have own : ∀ d ∈ declared ++ promoted, PrintableDeclaration d := by
    intro d hm
    obtain ⟨type, doc⟩ := made d hm
    refine ⟨isIdentifier_of_typeName (shaped d.name ?_), type, doc⟩
    rw [← h.taken_eq]
    exact List.mem_map_of_mem hm
  intro d hm
  unfold withWrapper at hm
  split at hm
  · exact own d hm
  · rcases List.mem_append.1 hm with hm | hm
    · exact own d hm
    · rw [List.mem_singleton.1 hm]
      refine printable_wrapper (fun operation ho entry he => ?_) fun operation ho => ?_
      · refine shaped entry.2 (List.mem_map_of_mem (f := Prod.snd) ?_)
        rw [h.valid.entries]
        exact List.mem_append_left _ (List.mem_flatMap.2 ⟨_, mem_operationsOf ho, he⟩)
      · have stands : operation.Stands index := h.stand _ (mem_operationsOf ho)
        exact stands.doc

end

/-- Of any document without infinite numbers: the unformatted text of its declarations is read, by a
reader that knows only the grammar of the language, as the names of those printed in order, each
with the type declared. -/
theorem assemble_reads {index : Index} {dialect : Dialect} {rawSchema : Bool} {assembly : Assembly}
    (finite : index.document.root.Finite)
    (h : assemble index dialect rawSchema = .ok assembly) (styleConfig : Option String) :
    ∃ text parsed,
      (Declaration.printWith (unformatted : Formatter Id) styleConfig rawSchema
        assembly.declarations).run = .ok text ∧
      read text = some parsed ∧
      List.Forall₂ DeclarationAgrees
        (assembly.declarations.filter (Declaration.isPrinted rawSchema)) parsed := by
  obtain ⟨_, _, declared, promoted, state, -, -, assembled, rfl⟩ := assemble_runs h
  obtain ⟨parsed, hr, ha⟩ := read_print rawSchema (printable_assembled assembled finite)
  exact ⟨_, parsed, rfl, hr, ha⟩

/-- A map of one schema whose type nests a union in an intersection in an array, with a text that
would end a comment and keys and literals that need care. -/
def nestedSchemas : Document :=
  .ofJson (.object [("Nested", .object [
    ("type", .string "array"),
    ("description", .string "Ends */ here."),
    ("items", .object [("allOf", .array [
      .object [("enum", .array [.string "a\"b", .number (.float (.ofDecimal true 15 (-1))),
        .number (.int 3)])],
      .object [("not", .object [])],
      .object [("properties", .object [("two words", .object [("type", .string "null")])])],
      .object [("$ref", .string "#/definitions/Nested")]])])])])

theorem assemble_reads_nestedSchemas :
    ∃ assembly, assemble (indexOf nestedSchemas .swagger2 true) .swagger2 true = .ok assembly ∧
      ∃ text parsed,
        (Declaration.printWith (unformatted : Formatter Id) none true
          assembly.declarations).run = .ok text ∧
        read text = some parsed ∧
        List.Forall₂ DeclarationAgrees
          (assembly.declarations.filter (Declaration.isPrinted true)) parsed := by
  have succeeds : (assemble (indexOf nestedSchemas .swagger2 true) .swagger2 true).isOk = true := by
    decide +kernel
  have finite : (indexOf nestedSchemas .swagger2 true).document.root.Finite := by
    have fraction : (Number.float (.ofDecimal true 15 (-1))).toBinary.isFinite = true := by
      decide +kernel
    have whole : (Number.int 3).toBinary.isFinite = true := by decide +kernel
    exact Json.Finite.merged _ (by simp [fraction, whole])
  cases he : assemble (indexOf nestedSchemas .swagger2 true) .swagger2 true with
  | error error =>
    rw [he] at succeeds
    cases succeeds
  | ok assembly => exact ⟨assembly, rfl, assemble_reads finite he none⟩

end ApiTypes.Reading
