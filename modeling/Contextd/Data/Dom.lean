import Mathlib.Data.List.Basic

/-!
# Document trees

A tree of elements and texts, and the way a reader walks it: the child elements of a given
name, an attribute with its default, and the text below an element.
-/

/-- A node of a document: an element with its name, its attributes and its children, or a
text. -/
inductive Dom where
  | element (tagName : String) (attributes : List (String × String)) (children : List Dom)
  | text (data : String)

namespace Dom

/-- The node is an element of the given name. -/
def isNamed (tagName : String) : Dom → Bool
  | element name _ _ => name == tagName
  | text _ => false

/-- The node is an element. -/
def isElement : Dom → Bool
  | element .. => true
  | text _ => false

/-- The name of an element. -/
def tagName : Dom → String
  | element name _ _ => name
  | text _ => ""

/-- The children of an element. -/
def children : Dom → List Dom
  | element _ _ cs => cs
  | text _ => []

/-- The child elements, in order. -/
def childElements (d : Dom) : List Dom := d.children.filter isElement

/-- The child elements of a name, in order. -/
def childrenNamed (d : Dom) (name : String) : List Dom := d.children.filter (isNamed name)

/-- The first child element of a name. -/
def firstChild (d : Dom) (name : String) : Option Dom := d.children.find? (isNamed name)

/-- An attribute, or a default when there is none. -/
def attrD (d : Dom) (name default : String) : String :=
  match d with
  | element _ attrs _ => (attrs.lookup name).getD default
  | text _ => default

/-- An attribute, empty when there is none. -/
def attr (d : Dom) (name : String) : String := d.attrD name ""

mutual

/-- The texts below a node, in order. -/
def textOf : Dom → String
  | text data => data
  | element _ _ cs => textOfAll cs

/-- The texts below a list of nodes, in order. -/
def textOfAll : List Dom → String
  | [] => ""
  | d :: ds => textOf d ++ textOfAll ds

end

mutual

/-- The elements of a name among a node and what is below it, in the order of the document. -/
def elementsByTagName (name : String) : Dom → List Dom
  | text _ => []
  | element tag attrs cs =>
      (if tag = name then [element tag attrs cs] else []) ++ elementsOfAll name cs

/-- The elements of a name among a list of nodes and what is below them. -/
def elementsOfAll (name : String) : List Dom → List Dom
  | [] => []
  | d :: ds => elementsByTagName name d ++ elementsOfAll name ds

end

/-- The elements of a name below a node. -/
def descendantsNamed (d : Dom) (name : String) : List Dom := elementsOfAll name d.children

/-- An element that holds a text. -/
def textElement (tagName : String) (data : String) : Dom := element tagName [] [text data]

@[simp]
theorem textOf_textElement (tagName data : String) :
  (textElement tagName data).textOf = data
  := by
  simp [textElement, textOf, textOfAll]

section Element

variable {α : Type} {tag name : String} {attrs : List (String × String)} {cs : List Dom}

@[simp]
theorem children_element :
  (element tag attrs cs).children = cs
  := rfl

@[simp]
theorem isNamed_element :
  (element tag attrs cs).isNamed name = (tag == name)
  := rfl

/-- The children of an element all of whose children have a name. -/
theorem childrenNamed_map {f : α → Dom} {xs : List α} (h : ∀ x, (f x).isNamed name = true) :
  (element tag attrs (xs.map f)).childrenNamed name = xs.map f
  := by
  apply List.filter_eq_self.mpr
  intro e he
  obtain ⟨x, -, rfl⟩ := List.mem_map.mp he
  apply h

end Element

end Dom
