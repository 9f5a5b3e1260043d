import Codemod.Markup.Document

namespace Codemod.Markup

/-- An element in its tree, with its ancestors from the nearest on. -/
structure Place where
  element : Element
  ancestors : List Element

mutual

/-- The places of an element and its descendants in document order. -/
def Element.places (above : List Element) : Element → List Place
  | .node tag children endTag stop =>
    let self := Element.node tag children endTag stop
    ⟨self, above⟩ :: Element.placesIn (self :: above) children

def Element.placesIn (above : List Element) : List Element → List Place
  | [] => []
  | e :: es => e.places above ++ Element.placesIn above es

end

mutual

/-- The matching elements of a subtree, without those below another match. -/
def Element.outermost (select : Element → Bool) : Element → List Element
  | .node tag children endTag stop =>
    let self := Element.node tag children endTag stop
    if select self then [self] else Element.outermostIn select children

def Element.outermostIn (select : Element → Bool) : List Element → List Element
  | [] => []
  | e :: es => e.outermost select ++ Element.outermostIn select es

end

/-- What a visitor wants after an element: its children, no children, or no further element. -/
inductive Visit (ε : Type) where
  | descend
  | skip
  | stop (reason : ε)

mutual

/-- Visit a subtree in document order: the elements visited and why the visit was cut short. -/
def Element.walk {ε : Type} (visit : Element → Visit ε) : Element → List Element × Option ε
  | .node tag children endTag stop =>
    let self := Element.node tag children endTag stop
    match visit self with
    | .stop reason => ([self], some reason)
    | .skip => ([self], none)
    | .descend =>
      let below := Element.walkIn visit children
      (self :: below.1, below.2)

def Element.walkIn {ε : Type} (visit : Element → Visit ε) : List Element → List Element × Option ε
  | [] => ([], none)
  | e :: es =>
    match e.walk visit with
    | (seen, some reason) => (seen, some reason)
    | (seen, none) =>
      let rest := Element.walkIn visit es
      (seen ++ rest.1, rest.2)

end

def Document.places (d : Document) : List Place := Element.placesIn [] d.roots

/-- The matching elements in document order. -/
def Document.find (d : Document) (select : Element → Bool) : List Element :=
  (d.places.map Place.element).filter select

def Document.outermost (d : Document) (select : Element → Bool) : List Element :=
  Element.outermostIn select d.roots

namespace Element

/-- The matching elements of the subtree, the element itself included. -/
def find (e : Element) (select : Element → Bool) : List Element :=
  ((e.places []).map Place.element).filter select

/-- The matching elements below. -/
def descendants (e : Element) (select : Element → Bool) : List Element :=
  ((placesIn [] e.children).map Place.element).filter select

/-- The element has one of the tag names. -/
def named (names : List Bytes) (e : Element) : Bool := names.contains e.name

end Element

/-- The nearest matching ancestor. -/
def Place.ancestor? (p : Place) (select : Element → Bool) : Option Element :=
  p.ancestors.find? select

end Codemod.Markup
