import StrictJson.Proofs.Syntax.Token

/-!
# Syntax Trees

A document with nothing forgotten: its white space, the spelling of each of its characters and the
members that a later one overwrites. A tree knows its bytes and what they mean, and it knows the
constructs that options may refuse, each with the byte where it stands.

Trees are one family over the **part** of the grammar that they belong to. A value with white space
around it is an element. Elements with commas between them are items, and elements with keys before
them are members. A document is an element.

## Main definitions

* `Part`, `Tree`, `Document`
* `Tree.text`: the bytes of a tree.
* `Tree.meaning`: what it denotes.
* `Tree.constructs`: the constructs that may be refused, in the order of the text.
* `Tree.objectKeys`, `Tree.spellings`: the keys of each object and the characters of each string.
-/

namespace StrictJson.Syntax

/-- The **parts** of the grammar that are trees. -/
inductive Part where
  | value
  | element
  | items
  | members
  deriving DecidableEq

/-- What a part of the grammar denotes. -/
@[reducible] def Part.Meaning : Part → Type
  | value | element => Value
  | items => List Value
  | members => List (String × Value)

/-- A key as it is **labelled** in a text: with white space on both sides. -/
structure Label where
  before : Space
  key : List Spelling
  after : Space

namespace Label

/-- The bytes of a label, without the colon that follows it. -/
def text (l : Label) : List UInt8 :=
  l.before.text ++ quotedText l.key ++ l.after.text

/-- The key itself. -/
def string (l : Label) : String :=
  spelledString l.key

/-- Where the key begins if the label begins at the byte `p`. -/
def keyOffset (l : Label) (p : ℕ) : ℕ :=
  p + l.before.text.length

/-- The constructs of a label that begins at the byte `p`, in an object where the keys `seen` stand
before it. -/
def constructs (l : Label) (p : ℕ) (seen : List String) : List Construct :=
  (if l.string ∈ seen then [.repeatedKey l.string (l.keyOffset p)] else []) ++
    quotedConstructs .key (l.keyOffset p) l.key

end Label

/-- A **syntax tree** of a part of the grammar. -/
inductive Tree : Part → Type where
  | word (w : Word) : Tree .value
  | number (n : NumberToken) : Tree .value
  | string (ss : List Spelling) : Tree .value
  | emptyArray (space : Space) : Tree .value
  | array (items : Tree .items) : Tree .value
  | emptyObject (space : Space) : Tree .value
  | object (members : Tree .members) : Tree .value
  | padded (before : Space) (value : Tree .value) (after : Space) : Tree .element
  | lastItem (first : Tree .element) : Tree .items
  | item (first : Tree .element) (others : Tree .items) : Tree .items
  | lastMember (label : Label) (element : Tree .element) : Tree .members
  | member (label : Label) (element : Tree .element) (others : Tree .members) : Tree .members

/-- A **document** is a value with white space around it. -/
abbrev Document := Tree .element

namespace Tree

/-- The **bytes** of a tree. -/
def text : {part : Part} → Tree part → List UInt8
  | _, word w => w.text
  | _, number n => n.text
  | _, string ss => quotedText ss
  | _, emptyArray space => 0x5b :: space.text ++ [0x5d]
  | _, array items => 0x5b :: items.text ++ [0x5d]
  | _, emptyObject space => 0x7b :: space.text ++ [0x7d]
  | _, object members => 0x7b :: members.text ++ [0x7d]
  | _, padded before value after => before.text ++ value.text ++ after.text
  | _, lastItem first => first.text
  | _, item first others => first.text ++ 0x2c :: others.text
  | _, lastMember label element => label.text ++ 0x3a :: element.text
  | _, member label element others => label.text ++ 0x3a :: element.text ++ 0x2c :: others.text

/-- What a tree **denotes**. Members are written into their object one after the other, so that a
key that is repeated keeps its first place and gets its last value. -/
def meaning : {part : Part} → Tree part → part.Meaning
  | _, word w => w.value
  | _, number n => n.value
  | _, string ss => .string (spelledString ss)
  | _, emptyArray _ => .array []
  | _, array items => .array items.meaning
  | _, emptyObject _ => .object []
  | _, object members => .object (Members.ofPairs members.meaning)
  | _, padded _ value _ => value.meaning
  | _, lastItem first => [first.meaning]
  | _, item first others => first.meaning :: others.meaning
  | _, lastMember label element => [(label.string, element.meaning)]
  | _, member label element others => (label.string, element.meaning) :: others.meaning

/-- The **constructs** of a tree that options may refuse, in the order of the text. The tree stands
inside `outer` containers and begins at the byte `p`. If it is the rest of an object then the keys
`seen` stand before it. -/
def constructs : {part : Part} → Tree part → ℕ → ℕ → List String → List Construct
  | _, word _, _, _, _ => []
  | _, number _, _, _, _ => []
  | _, string ss, _, p, _ => quotedConstructs .value p ss
  | _, emptyArray _, outer, p, _ => [.bracket outer p]
  | _, array items, outer, p, _ => .bracket outer p :: items.constructs (outer + 1) (p + 1) []
  | _, emptyObject _, outer, p, _ => [.bracket outer p]
  | _, object members, outer, p, _ =>
    .bracket outer p :: members.constructs (outer + 1) (p + 1) []
  | _, padded before value _, outer, p, _ =>
    value.constructs outer (p + before.text.length) []
  | _, lastItem first, outer, p, _ => first.constructs outer p []
  | _, item first others, outer, p, _ =>
    first.constructs outer p [] ++ others.constructs outer (p + first.text.length + 1) []
  | _, lastMember label element, outer, p, seen =>
    label.constructs p seen ++ element.constructs outer (p + label.text.length + 1) []
  | _, member label element others, outer, p, seen =>
    label.constructs p seen ++ element.constructs outer (p + label.text.length + 1) [] ++
      others.constructs outer (p + label.text.length + 1 + element.text.length + 1)
        (label.string :: seen)

/-- The keys of members, in the order of the text and as often as they stand there. -/
def keys : {part : Part} → Tree part → List String
  | _, lastMember label _ => [label.string]
  | _, member label _ others => label.string :: others.keys
  | _, _ => []

/-- The **keys of each object** of a tree, also of those that a later member overwrites. -/
def objectKeys : {part : Part} → Tree part → List (List String)
  | _, word _ => []
  | _, number _ => []
  | _, string _ => []
  | _, emptyArray _ => []
  | _, array items => items.objectKeys
  | _, emptyObject _ => []
  | _, object members => members.keys :: members.objectKeys
  | _, padded _ value _ => value.objectKeys
  | _, lastItem first => first.objectKeys
  | _, item first others => first.objectKeys ++ others.objectKeys
  | _, lastMember _ element => element.objectKeys
  | _, member _ element others => element.objectKeys ++ others.objectKeys

/-- The **spellings** of a tree: all characters of its strings and keys, as they are written. -/
def spellings : {part : Part} → Tree part → List Spelling
  | _, word _ => []
  | _, number _ => []
  | _, string ss => ss
  | _, emptyArray _ => []
  | _, array items => items.spellings
  | _, emptyObject _ => []
  | _, object members => members.spellings
  | _, padded _ value _ => value.spellings
  | _, lastItem first => first.spellings
  | _, item first others => first.spellings ++ others.spellings
  | _, lastMember label element => label.key ++ element.spellings
  | _, member label element others => label.key ++ element.spellings ++ others.spellings

/-- How many containers of a tree lie around one another at most. -/
def depth : {part : Part} → Tree part → ℕ
  | _, word _ => 0
  | _, number _ => 0
  | _, string _ => 0
  | _, emptyArray _ => 1
  | _, array items => items.depth + 1
  | _, emptyObject _ => 1
  | _, object members => members.depth + 1
  | _, padded _ value _ => value.depth
  | _, lastItem first => first.depth
  | _, item first others => max first.depth others.depth
  | _, lastMember _ element => element.depth
  | _, member _ element others => max element.depth others.depth

end Tree

end StrictJson.Syntax
