import ApiTypes.Binary64.Basic

/-!
Type expressions: what a declaration says about a value. `same` is the equality that keeps unions
free of repetition; `union` and `intersection` build theirs without nesting and without a union
or intersection of a single type.
-/

namespace ApiTypes

/-- What is said about a declaration or property to its reader. -/
structure Doc where
  /-- Lines of prose. -/
  summary : List String := []
  /-- Tags with their values. -/
  tags : List (String × String) := []
  deriving DecidableEq, Repr

namespace Doc

def isEmpty (doc : Doc) : Bool :=
  doc.summary.isEmpty && doc.tags.isEmpty

/-- The documentation, if it says anything. -/
def nonempty? (doc : Doc) : Option Doc :=
  if doc.isEmpty then none else some doc

end Doc

inductive Primitive
  | string
  | number
  | boolean
  | never
  | undefined
  deriving DecidableEq, Repr

/-- A type of one value. Whole numbers and floating point numbers are different literals. -/
inductive Literal
  | string (value : String)
  | number (value : Binary64)
  | int (value : Int)
  | bool (value : Bool)
  | null
  deriving DecidableEq, Repr

/-- Equality of literals. Floating point numbers are compared by value. -/
def Literal.same : Literal → Literal → Bool
  | .string a, .string b => a == b
  | .number a, .number b => a.same b
  | .int a, .int b => a == b
  | .bool a, .bool b => a == b
  | .null, .null => true
  | _, _ => false

mutual

inductive TypeExpr
  | primitive (kind : Primitive)
  | literal (value : Literal)
  | array (item : TypeExpr)
  | object (members : List Member)
  | union (types : List TypeExpr)
  | intersection (types : List TypeExpr)
  /-- The type declared under a name. -/
  | ref (name : String)
  /-- Any value, with the reason why no more is known. -/
  | unknown (note : Option String)

/-- What an object type says: a property, or all keys beside the properties. -/
inductive Member
  | property (name : String) (type : TypeExpr) (isOptional isReadonly : Bool) (doc : Option Doc)
  | index (key value : TypeExpr)

end

instance : Inhabited TypeExpr :=
  ⟨.unknown none⟩

/-- A property that can be written and is not documented. -/
def Member.plain (name : String) (type : TypeExpr) (isOptional : Bool) : Member :=
  .property name type isOptional false none

namespace TypeExpr

def null : TypeExpr :=
  .literal .null

def string : TypeExpr :=
  .primitive .string

def number : TypeExpr :=
  .primitive .number

def never : TypeExpr :=
  .primitive .never

def undefined : TypeExpr :=
  .primitive .undefined

mutual

/-- Equality of types: of the same build, with equal literals. -/
def same : TypeExpr → TypeExpr → Bool
  | .primitive a, .primitive b => a == b
  | .literal a, .literal b => a.same b
  | .array a, .array b => a.same b
  | .object a, .object b => sameMembers a b
  | .union a, .union b => sameTypes a b
  | .intersection a, .intersection b => sameTypes a b
  | .ref a, .ref b => a == b
  | .unknown a, .unknown b => a == b
  | _, _ => false

def sameTypes : List TypeExpr → List TypeExpr → Bool
  | [], [] => true
  | a :: as, b :: bs => a.same b && sameTypes as bs
  | _, _ => false

def sameMember : Member → Member → Bool
  | .property name type isOptional isReadonly doc, .property name' type' isOptional' isReadonly' doc' =>
    name == name' && type.same type' && isOptional == isOptional' && isReadonly == isReadonly' &&
      doc == doc'
  | .index key value, .index key' value' => key.same key' && value.same value'
  | _, _ => false

def sameMembers : List Member → List Member → Bool
  | [], [] => true
  | a :: as, b :: bs => sameMember a b && sameMembers as bs
  | _, _ => false

end

mutual

/-- Whether the type is the null literal or a union with it in some place. -/
def includesNull : TypeExpr → Bool
  | .literal .null => true
  | .union types => anyIncludesNull types
  | _ => false

def anyIncludesNull : List TypeExpr → Bool
  | [] => false
  | type :: rest => type.includesNull || anyIncludesNull rest

end

/-- Whether the type is short enough to be repeated where it is used. -/
def isSimple : TypeExpr → Bool
  | .primitive _ | .literal _ | .ref _ | .unknown _ => true
  | .array item => item.isSimple
  | .object _ | .union _ | .intersection _ => false

mutual

/-- The names a type refers to, in the order they are written. -/
def refs : TypeExpr → List String
  | .ref name => [name]
  | .array item => item.refs
  | .union types => refsOfAll types
  | .intersection types => refsOfAll types
  | .object members => refsOfMembers members
  | .primitive _ => []
  | .literal _ => []
  | .unknown _ => []

def refsOfAll : List TypeExpr → List String
  | [] => []
  | type :: rest => type.refs ++ refsOfAll rest

def refsOfMember : Member → List String
  | .property _ type _ _ _ => type.refs
  | .index key value => key.refs ++ value.refs

def refsOfMembers : List Member → List String
  | [] => []
  | member :: rest => refsOfMember member ++ refsOfMembers rest

end

/-! ### Unions and intersections -/

/-- The members of a union, or the type alone. -/
def alternatives : TypeExpr → List TypeExpr
  | .union types => types
  | type => [type]

/-- The members of an intersection, or the type alone. -/
def conjuncts : TypeExpr → List TypeExpr
  | .intersection types => types
  | type => [type]

/-- Adds a type at the end unless its equal is there. -/
def insertNew (types : List TypeExpr) (type : TypeExpr) : List TypeExpr :=
  if types.any (·.same type) then types else types ++ [type]

/-- The types without those equal to an earlier one. -/
def dedupe (types : List TypeExpr) : List TypeExpr :=
  types.foldl insertNew []

/-- The union of distinct types that are no unions themselves. -/
def ofAlternatives : List TypeExpr → TypeExpr
  | [] => .never
  | [type] => type
  | types => .union types

/-- The intersection of types that are no intersections themselves. -/
def ofConjuncts : List TypeExpr → TypeExpr
  | [] => .unknown none
  | [type] => type
  | types => .intersection types

/-- The union of types. Unions among them are taken apart, and of equal types the first stays. -/
def unionOf (types : List TypeExpr) : TypeExpr :=
  ofAlternatives (dedupe (types.flatMap alternatives))

/-- The intersection of types. Intersections among them are taken apart. -/
def intersectionOf (types : List TypeExpr) : TypeExpr :=
  ofConjuncts (types.flatMap conjuncts)

end TypeExpr

end ApiTypes
