import Wikore.Rag.ContextBuilder

/-! The document tree of pugixml, as the parsers of office formats read it. -/

namespace Wikore.Parser

open ContextBuilder (Bytes utf8)

inductive XmlNode where
  | element (name : Bytes) (attributes : List (Bytes × Bytes)) (children : List XmlNode)
  | pcdata (value : Bytes)
  | cdata (value : Bytes)

namespace XmlNode

/-- `name()`, which a text does not have. -/
def name : XmlNode → Bytes
  | .element name _ _ => name
  | _ => []

def children : XmlNode → List XmlNode
  | .element _ _ children => children
  | _ => []

def attributes : XmlNode → List (Bytes × Bytes)
  | .element _ attributes _ => attributes
  | _ => []

/-- The value of a text; an element has none. -/
def textValue : XmlNode → Option Bytes
  | .element _ _ _ => none
  | .pcdata value => some value
  | .cdata value => some value

/-- `children(name)`. -/
def childrenNamed (n : XmlNode) (name : String) : List XmlNode :=
  n.children.filter fun child => child.name = utf8 name

/-- `child(name)`; without such a child the result is a null node, which has nothing. -/
def child (n : XmlNode) (name : String) : XmlNode :=
  (n.childrenNamed name).headD (.element [] [] [])

/-- `attribute(name).value()`. -/
def attributeValue (n : XmlNode) (name : String) : Bytes :=
  ((n.attributes.find? fun a => a.1 = utf8 name).map Prod.snd).getD []

/-- `text().get()`: the first text among the children. -/
def textGet (n : XmlNode) : Bytes :=
  match n.textValue with
  | some value => value
  | none => (n.children.findSome? textValue).getD []

/-- A name without its prefix. -/
def localName (name : Bytes) : Bytes :=
  (name.reverse.takeWhile fun c => c ≠ 58).reverse

end XmlNode

end Wikore.Parser
