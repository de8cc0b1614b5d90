import FsPkg.Model.PkgImport

/-! # Walking the table of contents: `pkg_toc.c` with libxml2

`pkg_toc_process` and `xmltoc_parse_file` over the tree that libxml2 delivers, where every node points to its first
child and to its next sibling. What both functions print and log is a list of events; a `file` element stands there with
its place: its position among the `file` elements beside it, and before it those of the elements around it, outermost
first. A result `none` stands for a `NULL` dereference. Giving the document and `val` back to libxml2 is left out.
-/

namespace FsPkg.PkgToc

open Db Pkg

/-- A node of a document, with what it holds itself. The content of an entity reference is that of the entity, and its
child the declaration of the entity among those of the document type. -/
inductive XmlNode where
  | element (name : Text)
  | text (content : Text)
  | cdata (content : Text)
  | entityRef (name content : Text)
  | pi (name content : Text)
  | comment (content : Text)
  | decl (name : Text)
deriving DecidableEq, Repr

/-- `node->name`. libxml2 names texts and comments too, and leaves a CDATA section without a name. -/
def XmlNode.name : XmlNode → Option Text
  | .element name | .entityRef name _ | .pi name _ | .decl name => some name
  | .text _ => some ['t', 'e', 'x', 't']
  | .cdata _ => none
  | .comment _ => some ['c', 'o', 'm', 'm', 'e', 'n', 't']

/-- `XML_NODE_MATCHS`. -/
def XmlNode.matchs (n : XmlNode) (s : Text) : Bool :=
  n = .element s

/-- An `xmlNode *`. -/
inductive Xml where
  | null
  | node (n : XmlNode) (children next : Xml)
deriving DecidableEq, Repr

/-- `xmlNodeGetContent` of an element, given its children: the texts below it. -/
def xmlNodeGetContent : Xml → Text
  | .null => []
  | .node (.element _) children next => xmlNodeGetContent children ++ xmlNodeGetContent next
  | .node (.text content) _ next => content ++ xmlNodeGetContent next
  | .node (.cdata content) _ next => content ++ xmlNodeGetContent next
  | .node (.entityRef _ content) _ next => content ++ xmlNodeGetContent next
  | .node (.pi _ _) _ next => xmlNodeGetContent next
  | .node (.comment _) _ next => xmlNodeGetContent next
  | .node (.decl _) _ next => xmlNodeGetContent next

/-- `enum XarFileType`. -/
inductive XarFileType where
  | none
  | dir
  | file
  | symlink
  | hardlink
deriving DecidableEq, Repr

/-- What the walk prints and logs. -/
inductive TocEvent where
  /-- `xmltoc_parse_file` starts on a `file` element. -/
  | file (place : List ℕ)
  /-- `name: %s`, or `child name: %s` on the first level. -/
  | name (name : Option Text)
  /-- `val: %s xft: %d`. -/
  | value (val : Option Text) (xft : XarFileType)
  /-- `got unknown tag %s in pkg %s TOC, ignoring`. -/
  | unknownTag (name : Option Text) (pkg : Text)
  /-- `package %s recursion too deep: %d`, on reaching a `file` element. -/
  | tooDeep (pkg : Text) (recursion : ℕ) (place : List ℕ)
deriving DecidableEq, Repr

def maxDepth : ℕ := 16

/-- The type that the content of a `type` element stands for; any other content leaves it as it was. -/
def xarFileType (val : Text) (xft : XarFileType) : XarFileType :=
  if val = ['d', 'i', 'r', 'e', 'c', 't', 'o', 'r', 'y'] then .dir
  else if val = ['f', 'i', 'l', 'e'] then .file
  else if val = ['s', 'y', 'm', 'l', 'i', 'n', 'k'] then .symlink
  else if val = ['h', 'a', 'r', 'd', 'l', 'i', 'n', 'k'] then .hardlink
  else xft

/-- One pass of the loop of `xmltoc_parse_file` over a node that is no `file` element. The content of four of the
elements is asked of `child_node`, which is `NULL`, so `val` stays `NULL`. -/
def xmltocOther (pkg : Text) (n : XmlNode) (children : Xml) (xft : XarFileType) : List TocEvent × XarFileType :=
  if n.matchs ['d', 'a', 't', 'a'] then ([.value none xft], xft)
  else if n.matchs ['g', 'i', 'd'] then ([.value none xft], xft)
  else if n.matchs ['m', 't', 'i', 'm', 'e'] then ([.value none xft], xft)
  else if n.matchs ['n', 'a', 'm', 'e'] then ([.value none xft], xft)
  else if n.matchs ['t', 'y', 'p', 'e'] then
    let val := xmlNodeGetContent children
    let xft := xarFileType val xft
    ([.value (some val) xft], xft)
  else if n.matchs ['u', 'i', 'd'] then ([.value none xft], xft)
  else if n.matchs ['t', 'e', 'x', 't'] then ([], xft)
  else ([.unknownTag n.name pkg], xft)

/-- The loop of `xmltoc_parse_file` from `cur_node` on, inside the `file` element at the place `parent` and behind
`position` others: the result and the events. `recursion` counts on along the loop, and what the call for an inner
element returns is dropped. -/
def xmltocLoop (pkg : Text) (parent : List ℕ) : Xml → ℕ → ℕ → XarFileType → Int32 × List TocEvent
  | .null, _, _, _ => (0, [])
  | .node n children next, position, recursion, xft =>
    if n.matchs ['f', 'i', 'l', 'e'] then
      let recursion := recursion + 1
      let place := parent ++ [position]
      if recursion > maxDepth then (-1, [.name n.name, .tooDeep pkg recursion place])
      else
        let below := xmltocLoop pkg place children 0 recursion .none
        let rest := xmltocLoop pkg parent next (position + 1) recursion xft
        (rest.1, .name n.name :: .file place :: below.2 ++ .value none xft :: rest.2)
    else
      let pass := xmltocOther pkg n children xft
      let rest := xmltocLoop pkg parent next position recursion pass.2
      (rest.1, .name n.name :: pass.1 ++ rest.2)

/-- `xmltoc_parse_file` for the `file` element at a place, given its children. -/
def xmltocParseFile (pkg : Text) (place : List ℕ) (children : Xml) (recursion : ℕ) : Int32 × List TocEvent :=
  xmltocLoop pkg place children 0 recursion .none

/-- The loop of `pkg_toc_process` from `cur_node` on, behind `position` other `file` elements. -/
def tocNodes (path : Text) : Xml → ℕ → List TocEvent
  | .null, _ => []
  | .node n children next, position =>
    if n.matchs ['f', 'i', 'l', 'e'] then
      .name n.name :: .file [position] :: (xmltocParseFile path [position] children 0).2 ++
        tocNodes path next (position + 1)
    else .name n.name :: tocNodes path next position

/-- `pkg_toc_process` with libxml2, given what `xmlReadFile` and `xmlDocGetRootElement` return. The second child of the
root is fetched before the root's name is looked at. -/
def pkgTocProcessXml (path : Text) (env : ImportEnv) (doc : Option Xml) (c : Conn) :
    Option (Int32 × List TocEvent × Conn) :=
  match doc with
  | none => some (exitFailure, [], c)
  | some .null => some (exitFailure, [], c)
  | some (.node root children _) =>
    if root.name = none then some (exitFailure, [], c)
    else match children with
      | .null => none
      | .node _ _ curNode =>
        if root.name ≠ some ['x', 'a', 'r'] then some (exitFailure, [], c)
        else match curNode with
          | .null => none
          | .node n children _ =>
            if n.name ≠ some ['t', 'o', 'c'] then some (exitFailure, [], c)
            else some (exitSuccess, tocNodes path children 0, tocStore path env noFiles c)

end FsPkg.PkgToc
