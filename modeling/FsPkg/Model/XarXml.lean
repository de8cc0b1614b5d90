import FsPkg.Model.XarB64
import FsPkg.Model.XarWalk

/-! # Writing and reading the table of contents

`xar/filetree.c` and `xar/archive.c` write files and properties as elements with an `xmlTextWriter` and read them back
with an `xmlTextReader`. A document is the tree the writer leaves; the reader goes over it node by node, in order, and
has its end of every element that is not written as an empty one. Names and texts are such as XML allows, names have no
colon beyond their prefix, and texts have their line ends as the reader delivers them.
Reading over what is not well-formed, there are no more nodes. A result `none` is a null pointer followed.
-/

namespace FsPkg.Xar

open Machine
open Pkg (Text)

/-- An attribute in a document. -/
structure XmlAttr where
  pfx : Option Text := none
  name : Text
  value : Text
deriving DecidableEq, Repr

/-- A start tag, and whether it is that of an empty element. -/
structure Tag where
  pfx : Option Text := none
  name : Text
  attrs : List XmlAttr := []
  isEmpty : Bool := false
deriving DecidableEq, Repr

/-- What `xmlTextReaderRead` comes to. Only text that is not blank is `XML_READER_TYPE_TEXT`; blanks, comments and so on
are other nodes. -/
inductive XmlEvent where
  | element (tag : Tag)
  | text (value : Text)
  | endElement (name : Text)
  | other
deriving DecidableEq, Repr

/-- What a reader has still to come to, after some of it. -/
abbrev Later (es : List XmlEvent) := { rest : List XmlEvent // rest.length ≤ es.length }

/-- The same, seen from before. -/
def Later.after {es es' : List XmlEvent} (rest : Later es) (shorter : es.length ≤ es'.length) : Later es' :=
  ⟨rest.1, Nat.le_trans rest.2 shorter⟩

/-- A result with what is left to read, seen from before. -/
def carry {α : Type} {es es' : List XmlEvent} (shorter : es.length ≤ es'.length) (read : Option (α × Later es)) :
    Option (α × Later es') :=
  read.map fun r => (r.1, r.2.after shorter)

/-! ## Reading -/

/-- `isname`: the element is called name. -/
def Tag.isName (tag : Tag) : Bool := tag.name = "name".toList

/-- The attribute that says a name is encoded. -/
def Tag.encodes (tag : Tag) (a : XmlAttr) : Bool :=
  tag.isName && a.name = "enctype".toList && a.value = "base64".toList

/-- A new attribute goes to the head of its list. -/
def attrsUnserialize (attrs : List XmlAttr) : List XarAttr :=
  attrs.foldl (fun attrs a => { key := a.name, value := a.value, ns := a.pfx } :: attrs) []

/-- The start of `xar_prop_unserialize`, up to the nodes inside. -/
def propStart (tag : Tag) : XarProp where
  key := tag.name
  attrs := attrsUnserialize (tag.attrs.filter fun a => !tag.encodes a)
  pfx := tag.pfx

/-- What `parent` holds of the file a property is read for. An archive and a subdocument are taken for files: the one
has its files there, the other the text of its name. -/
inductive Parent where
  | null
  | file
  | text
deriving DecidableEq, Repr

/-- Whether the copy of a file's name into `fspath` follows a null pointer, or one into a text. -/
def Parent.faults : Parent → Option Text → Bool
  | null, value => value = none
  | file, _ => false
  | text, _ => true

/-- What a text is decoded into: the buffer as it was, and the memory as it was allocated. -/
structure Fresh where
  buf : Text → ℕ × ℕ × ℕ
  memory : Text → List ℕ

/-- `xar_from_base64`, in what memory there is. -/
def Fresh.fromBase64 (fresh : Fresh) (value : Text) : Option Text :=
  xarFromBase64 (fresh.buf value) (fresh.memory value) value

section Reading

variable (fresh : Fresh)

/-- The loop of `xar_prop_unserialize`: the property, and what is below it. -/
def propLoop (parent : Parent) (tag : Tag) (p : XarProp) (children : XarProps) :
    (es : List XmlEvent) → Option ((XarProp × XarProps) × Later es)
  | [] => some ((p, children), ⟨[], Nat.le_refl _⟩)
  | .element child :: es =>
    if child.isEmpty then carry (Nat.le_succ _) (propLoop parent tag p (.node (propStart child) .nil children) es)
    else
      (propLoop parent child (propStart child) .nil es).bind fun below =>
        carry (Nat.le_trans below.2.2 (Nat.le_succ _))
          (propLoop parent tag p (.node below.1.1 below.1.2 children) below.2.1)
  | .text value :: es =>
    let value := if tag.attrs.any tag.encodes then fresh.fromBase64 value else some value
    if tag.isName && parent.faults value then none
    else carry (Nat.le_succ _) (propLoop parent tag { p with value } children es)
  | .endElement _ :: es => some ((p, children), ⟨es, Nat.le_succ _⟩)
  | .other :: es => carry (Nat.le_succ _) (propLoop parent tag p children es)
termination_by es => es.length
decreasing_by
  all_goals simp_wf
  simpa using Nat.lt_succ_of_le below.2.2

/-- `xar_prop_unserialize`, on a start tag. -/
def propUnserialize (parent : Parent) (tag : Tag) (es : List XmlEvent) : Option ((XarProp × XarProps) × Later es) :=
  if tag.isEmpty then some ((propStart tag, .nil), ⟨es, Nat.le_refl _⟩)
  else propLoop fresh parent tag (propStart tag) .nil es

/-- The start of `xar_file_unserialize`, up to the nodes inside. -/
def fileStart (tag : Tag) : XarFile where
  attrs := attrsUnserialize (tag.attrs.map fun a => { a with pfx := none })

/-- The loop of `xar_file_unserialize`: the file, and the files below it. It goes on to the next end of a file, whether
or not the element is empty. -/
def fileLoop (parent : Parent) (f : XarFile) (children : Forest XarFile) :
    (es : List XmlEvent) → Option ((XarFile × Forest XarFile) × Later es)
  | [] => some ((f, children), ⟨[], Nat.le_refl _⟩)
  | .element tag :: es =>
    if tag.name = "file".toList then
      (fileLoop .file (fileStart tag) .nil es).bind fun below =>
        carry (Nat.le_trans below.2.2 (Nat.le_succ _))
          (fileLoop parent f (children.append (.node below.1.1 below.1.2 .nil)) below.2.1)
    else
      (propUnserialize fresh parent tag es).bind fun p =>
        carry (Nat.le_trans p.2.2 (Nat.le_succ _))
          (fileLoop parent { f with props := .node p.1.1 p.1.2 f.props } children p.2.1)
  | .endElement name :: es =>
    if name = "file".toList then some ((f, children), ⟨es, Nat.le_succ _⟩)
    else carry (Nat.le_succ _) (fileLoop parent f children es)
  | .text _ :: es | .other :: es => carry (Nat.le_succ _) (fileLoop parent f children es)
termination_by es => es.length
decreasing_by
  all_goals simp_wf
  · simpa using Nat.lt_succ_of_le below.2.2
  · simpa using Nat.lt_succ_of_le p.2.2

/-- The loop of `xar_subdoc_unserialize`, which does not look whether the element is empty. -/
def subdocLoop : (es : List XmlEvent) → Option (Later es)
  | [] => some ⟨[], Nat.le_refl _⟩
  | .element tag :: es => do
    let (_, rest) ← propUnserialize fresh .text tag es
    let rest' ← subdocLoop rest.1
    return rest'.after (Nat.le_trans rest.2 (Nat.le_succ _))
  | .endElement _ :: es => some ⟨es, Nat.le_succ _⟩
  | .text _ :: es | .other :: es => do return (← subdocLoop es).after (Nat.le_succ _)
termination_by es => es.length
decreasing_by
  all_goals simp_wf
  simpa using Nat.lt_succ_of_le rest.2

end Reading

/-- The loops of `xar_signature_unserialize` that end after the end of some element, or, for a certificate, after a
text. -/
def afterEnd (orText : Bool) : (es : List XmlEvent) → Later es
  | [] => ⟨[], Nat.le_refl _⟩
  | .endElement _ :: es => ⟨es, Nat.le_succ _⟩
  | .text _ :: es => if orText then ⟨es, Nat.le_succ _⟩ else (afterEnd orText es).after (Nat.le_succ _)
  | .element _ :: es | .other :: es => (afterEnd orText es).after (Nat.le_succ _)

/-- The loop inside an element of a signature: it reads on inside the elements it knows. -/
def insideElement (known : Text) (inner : (es : List XmlEvent) → Later es) : (es : List XmlEvent) → Later es
  | [] => ⟨[], Nat.le_refl _⟩
  | .endElement _ :: es => ⟨es, Nat.le_succ _⟩
  | .element tag :: es =>
    let rest := if tag.name = known then inner es else ⟨es, Nat.le_refl _⟩
    (insideElement known inner rest.1).after (Nat.le_trans rest.2 (Nat.le_succ _))
  | .text _ :: es | .other :: es => (insideElement known inner es).after (Nat.le_succ _)
termination_by es => es.length
decreasing_by
  all_goals simp_wf
  simpa [rest] using Nat.lt_succ_of_le rest.2

/-- The loops for `KeyInfo`, `X509Data` and `X509Certificate`. -/
def keyInfo : (es : List XmlEvent) → Later es :=
  insideElement "X509Data".toList (insideElement "X509Certificate".toList (afterEnd true))

/-- What is read inside an element of a signature. -/
def signatureElement (name : Text) (es : List XmlEvent) : Later es :=
  if name = "size".toList then afterEnd false es
  else if name = "offset".toList then afterEnd false es
  else if name = "KeyInfo".toList then keyInfo es
  else ⟨es, Nat.le_refl _⟩

/-- The loop of `xar_signature_unserialize`, without what it keeps. -/
def signatureLoop : (es : List XmlEvent) → Later es
  | [] => ⟨[], Nat.le_refl _⟩
  | .element tag :: es =>
    let rest := signatureElement tag.name es
    (signatureLoop rest.1).after (Nat.le_trans rest.2 (Nat.le_succ _))
  | .text _ :: es | .endElement _ :: es => ⟨es, Nat.le_succ _⟩
  | .other :: es => (signatureLoop es).after (Nat.le_succ _)
termination_by es => es.length
decreasing_by
  all_goals simp_wf
  simpa using Nat.lt_succ_of_le rest.2

/-- What `xar_unserialize` fills of `struct __xar_t`: what it has as a file, its files, whether it has signatures. -/
structure XarArchive where
  self : XarFile := {}
  files : Forest XarFile := .nil
  signed : Bool := false
deriving DecidableEq, Repr

/-- The archive taken for a file: its parent is where the files are. -/
def XarArchive.parent (x : XarArchive) : Parent := if x.files = .nil then .null else .file

/-- The loop of `xar_unserialize` inside `toc`: it goes on to the end of the document. -/
def tocLoop (fresh : Fresh) (x : XarArchive) (es : List XmlEvent) : Option XarArchive :=
  match es with
  | [] => some x
  | .element tag :: es =>
    if tag.name = "file".toList then
      (fileLoop fresh .null (fileStart tag) .nil es).bind fun f =>
        tocLoop fresh { x with files := .node f.1.1 f.1.2 x.files } f.2.1
    else if tag.name = "signature".toList then tocLoop fresh { x with signed := true } (signatureLoop es).1
    else
      (propUnserialize fresh x.parent tag es).bind fun p =>
        tocLoop fresh { x with self := { x.self with props := .node p.1.1 p.1.2 x.self.props } } p.2.1
  | .text _ :: es | .endElement _ :: es | .other :: es => tocLoop fresh x es
termination_by es.length
decreasing_by
  all_goals simp_wf
  · simpa using Nat.lt_succ_of_le f.2.2
  · simpa using Nat.lt_succ_of_le (signatureLoop es).2
  · simpa using Nat.lt_succ_of_le p.2.2

/-- The two outer loops of `xar_unserialize`, before and inside `xar`. Attributes of a subdocument, but for its name,
are put into one that is not there yet. -/
def xarLoop (fresh : Fresh) (inside : Bool) (x : XarArchive) (es : List XmlEvent) :
    Option XarArchive :=
  match es with
  | [] => some x
  | .element tag :: es =>
    if !inside then xarLoop fresh (tag.name = "xar".toList) x es
    else if tag.name = "toc".toList then tocLoop fresh x es
    else if tag.attrs.any fun a => a.name ≠ "subdoc_name".toList then none
    else do
      let rest ← subdocLoop fresh es
      xarLoop fresh true x rest.1
  | .endElement name :: es => xarLoop fresh (inside && name ≠ "toc".toList) x es
  | .text _ :: es | .other :: es => xarLoop fresh inside x es
termination_by es.length
decreasing_by
  all_goals simp_wf
  simpa using Nat.lt_succ_of_le rest.2

/-- `xar_unserialize`, on what the reader comes to and whether it comes to the end of the document. -/
def xarUnserialize (fresh : Fresh) (es : List XmlEvent) (wellFormed : Bool) (x : XarArchive) :
    Option (Int32 × XarArchive) := do
  let x ← xarLoop fresh false x es
  return (if wellFormed then 0 else -1, x)

/-! ## Documents -/

/-- What is inside an element, or a document. -/
inductive Xml where
  | nil
  | element (tag : Tag) (inside next : Xml)
  | text (value : Text) (next : Xml)
  | other (next : Xml)
deriving DecidableEq, Repr

namespace Xml

/-- What the reader comes to. -/
def events : Xml → List XmlEvent
  | nil => []
  | element tag inside next =>
    .element tag :: ((if tag.isEmpty then [] else inside.events ++ [.endElement tag.name]) ++ next.events)
  | text value next => .text value :: next.events
  | other next => .other :: next.events

def append : Xml → Xml → Xml
  | nil, x => x
  | element tag inside next, x => element tag inside (next.append x)
  | text value next, x => text value (next.append x)
  | other next, x => other (next.append x)

/-- The document without blanks and comments. -/
def strip : Xml → Xml
  | nil => nil
  | element tag inside next => element tag inside.strip next.strip
  | text value next => text value next.strip
  | other next => next.strip

end Xml

/-! ## Writing -/

/-- Text of blanks only, which the reader does not take for text. -/
def blank (value : Text) : Bool := value.all fun c => c = ' ' || c = '\t' || c = '\n' || c = '\r'

/-- A text as it is written: an empty one leaves nothing. -/
def writeText (value : Text) : Xml :=
  if value = [] then .nil else if blank value then .other .nil else .text value .nil

section Writing

variable (latin1 : Text → Bool) (toBase64 : Text → Text)

/-- Whether `UTF8Toisolat1` fails on a name that is written. -/
def encoded (p : XarProp) : Bool := p.key = "name".toList && p.value.any fun value => !latin1 value

/-- The value of a property as it is written. -/
def valueText (p : XarProp) : Xml :=
  match p.value with
  | none => .nil
  | some value => writeText (if encoded latin1 p then toBase64 value else value)

/-- The start tag of a property; the element is closed in it if nothing is written inside. -/
def propTag (p : XarProp) (children : XarProps) : Tag where
  pfx := p.pfx
  name := p.key
  attrs :=
    p.attrs.map (fun a => { pfx := a.ns, name := a.key, value := a.value }) ++
      if encoded latin1 p then [{ name := "enctype".toList, value := "base64".toList }] else []
  isEmpty := p.value = none && children = .nil

/-- `xar_prop_serialize`. -/
def xarPropSerialize : XarProps → Xml
  | .nil => .nil
  | .node p children next =>
    .element (propTag latin1 p children) ((valueText latin1 toBase64 p).append (xarPropSerialize children))
      (xarPropSerialize next)

/-- The start tag of a file. -/
def fileTag (f : XarFile) (children : Forest XarFile) : Tag where
  name := "file".toList
  attrs := f.attrs.map fun a => { name := a.key, value := a.value }
  isEmpty := f.props = .nil && children = .nil

/-- `xar_file_serialize`. -/
def xarFileSerialize : Forest XarFile → Xml
  | .nil => .nil
  | .node f children next =>
    .element (fileTag f children) ((xarPropSerialize latin1 toBase64 f.props).append (xarFileSerialize children))
      (xarFileSerialize next)

/-- `xar_serialize`, for an archive without subdocuments and signatures. -/
def xarSerialize (x : XarArchive) : Xml :=
  let toc := (xarPropSerialize latin1 toBase64 x.self.props).append (xarFileSerialize latin1 toBase64 x.files)
  .element { name := "xar".toList } (.element { name := "toc".toList, isEmpty := toc = .nil } toc .nil) .nil

end Writing

end FsPkg.Xar
