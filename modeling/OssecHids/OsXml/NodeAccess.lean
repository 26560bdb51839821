import OssecHids.OsXml.Read

/-!
# Access to the elements

`os_xml_node_access.c`: the children of an element, found in the arrays by their depths.

- `getElementsByNode`: the children of an element, or the elements of the top level;
- `elementsLoop_append`: elements below the children are passed over.
-/

open CString

namespace OsXml

/-- `xml_node` -/
structure XmlNode where
  key : ℕ
  element : Bytes
  content : Option Bytes
  attributes : List Bytes
  values : List Bytes
  deriving DecidableEq, Repr

/-- The attributes behind an element of depth `m`. -/
def attributesOf (m : ℕ) (items : OSXml) : OSXml :=
  items.takeWhile fun item => item.tp == .XML_ATTR && item.rl == m && item.ct.isSome

/-- The loop of `OS_GetElementsbyNode`, from the index `i` on. -/
def elementsLoop (root : Bool) (m : ℕ) : ℕ → OSXml → List XmlNode
  | _, [] => []
  | i, item :: items =>
    if item.tp = .XML_ELEM ∧ item.rl = m then
      { key := i
        element := item.el
        content := item.ct
        attributes := (attributesOf m items).map Item.el
        values := (attributesOf m items).filterMap Item.ct } :: elementsLoop root m (i + 1) items
    else if item.tp = .XML_ELEM ∧ m > item.rl then
      if root then elementsLoop root m (i + 1) items else []
    else elementsLoop root m (i + 1) items

/-- `OS_GetElementsbyNode` -/
def getElementsByNode (lxml : OSXml) (node : Option XmlNode) : List XmlNode :=
  match node with
  | none => elementsLoop true 0 0 lxml
  | some node =>
    match lxml[node.key]? with
    | none => []
    | some item => elementsLoop false (item.rl + 1) (node.key + 1) (lxml.drop (node.key + 1))

end OsXml
