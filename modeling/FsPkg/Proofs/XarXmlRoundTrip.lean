import FsPkg.Model.XarXml
import FsPkg.Proofs.XarB64Decode
import FsPkg.Proofs.XarTreeRuns

/-! # What is read back of a table of contents

Reading node by node builds what a plain recursion over the document builds: properties to the front of their list,
files below others to its end. Of a document that was written this is the archive with all its lists of properties and
attributes turned around and its files in the opposite order on the first level, so reading and writing twice changes
nothing, and no answer of a file changes once.
-/

namespace FsPkg.Xar

open Machine
open Pkg (Text)

/-! ## The recursion over a document -/

section Reading

variable (fresh : Fresh)

/-- What a property is and has below it after what is inside its element. -/
def Xml.readProp (parent : Parent) (tag : Tag) : Xml → XarProp × XarProps → Option (XarProp × XarProps)
  | .nil, read => some read
  | .text value next, (p, children) =>
    let value := if tag.attrs.any tag.encodes then fresh.fromBase64 value else some value
    if tag.isName && parent.faults value then none else next.readProp parent tag ({ p with value }, children)
  | .other next, read => next.readProp parent tag read
  | .element child inside next, (p, children) =>
    (if child.isEmpty then some (propStart child, .nil)
      else inside.readProp parent child (propStart child, .nil)).bind fun below =>
        next.readProp parent tag (p, .node below.1 below.2 children)

/-- A property of a file, or of the archive. -/
def Xml.prop (parent : Parent) (tag : Tag) (inside : Xml) : Option (XarProp × XarProps) :=
  if tag.isEmpty then some (propStart tag, .nil) else inside.readProp fresh parent tag (propStart tag, .nil)

/-- What a file is and has below it after what is inside its element. -/
def Xml.readFile (parent : Parent) : Xml → XarFile × Forest XarFile → Option (XarFile × Forest XarFile)
  | .nil, read => some read
  | .text _ next, read | .other next, read => next.readFile parent read
  | .element tag inside next, (f, children) =>
    if tag.name = "file".toList then
      (inside.readFile .file (fileStart tag, .nil)).bind fun below =>
        next.readFile parent (f, children.append (.node below.1 below.2 .nil))
    else
      (inside.prop fresh parent tag).bind fun p =>
        next.readFile parent ({ f with props := .node p.1 p.2 f.props }, children)

/-- What an archive is after what is inside the table of contents. -/
def Xml.readToc : Xml → XarArchive → Option XarArchive
  | .nil, x => some x
  | .text _ next, x | .other next, x => next.readToc x
  | .element tag inside next, x =>
    if tag.name = "file".toList then
      (inside.readFile fresh .null (fileStart tag, .nil)).bind fun f =>
        next.readToc { x with files := .node f.1 f.2 x.files }
    else
      (inside.prop fresh x.parent tag).bind fun p =>
        next.readToc { x with self := { x.self with props := .node p.1 p.2 x.self.props } }

/-! ## The loops over the nodes -/

/-- A result and what is left to read. -/
def left {α : Type} {es : List XmlEvent} (read : Option (α × Later es)) : Option (α × List XmlEvent) :=
  read.map fun r => (r.1, r.2.1)

omit fresh in
theorem left_carry {α : Type} {es es' : List XmlEvent} (shorter : es.length ≤ es'.length)
    (read : Option (α × Later es)) : left (carry shorter read) = left read := by
  cases read <;> rfl

omit fresh in
theorem left_bind {α β : Type} {es es' : List XmlEvent} (read : Option (α × Later es))
    (next : α × Later es → Option (β × Later es')) {later : α × List XmlEvent → Option (β × List XmlEvent)}
    (same : ∀ r, left (next r) = later (r.1, r.2.1)) : left (read.bind next) = (left read).bind later := by
  cases read with
  | none => rfl
  | some r => exact same r

variable {fresh}

theorem propLoop_element {parent : Parent} {tag child : Tag} {p : XarProp} {children : XarProps} {es : List XmlEvent} :
    left (propLoop fresh parent tag p children (.element child :: es)) =
      (left (propUnserialize fresh parent child es)).bind fun below =>
        left (propLoop fresh parent tag p (.node below.1.1 below.1.2 children) below.2) := by
  rw [propLoop, propUnserialize]
  split_ifs
  · exact left_carry _ _
  · exact left_bind _ _ fun below => left_carry _ _

theorem propLoop_text {parent : Parent} {tag : Tag} {p : XarProp} {children : XarProps} {text : Text}
    {es : List XmlEvent} :
    left (propLoop fresh parent tag p children (.text text :: es)) =
      let value := if tag.attrs.any tag.encodes then fresh.fromBase64 text else some text
      if tag.isName && parent.faults value then none
      else left (propLoop fresh parent tag { p with value } children es) := by
  rw [propLoop]
  dsimp only
  rw [apply_ite left, left_carry]
  rfl

theorem propLoop_other {parent : Parent} {tag : Tag} {p : XarProp} {children : XarProps} {es : List XmlEvent} :
    left (propLoop fresh parent tag p children (.other :: es)) =
      left (propLoop fresh parent tag p children es) := by
  rw [propLoop, left_carry]

theorem propLoop_end {parent : Parent} {tag : Tag} {p : XarProp} {children : XarProps} {name : Text}
    {es : List XmlEvent} :
    left (propLoop fresh parent tag p children (.endElement name :: es)) = some ((p, children), es) := by
  rw [propLoop]
  rfl

/-- One element inside, if its own loop goes over what is inside it. -/
theorem propUnserialize_element {parent : Parent} {tag : Tag} {inside : Xml}
    (loop : ∀ es, left (propLoop fresh parent tag (propStart tag) .nil (inside.events ++ es)) =
      (inside.readProp fresh parent tag (propStart tag, .nil)).bind fun read =>
        left (propLoop fresh parent tag read.1 read.2 es)) (es : List XmlEvent) :
    left (propUnserialize fresh parent tag
        ((if tag.isEmpty then [] else inside.events ++ [.endElement tag.name]) ++ es)) =
      (inside.prop fresh parent tag).map fun read => (read, es) := by
  unfold propUnserialize Xml.prop
  by_cases empty : tag.isEmpty
  · rw [if_pos empty, if_pos empty, if_pos empty]
    rfl
  · rw [if_neg empty, if_neg empty, if_neg empty, List.append_assoc, loop]
    simp only [List.singleton_append, propLoop_end]
    cases inside.readProp fresh parent tag (propStart tag, .nil) <;> rfl

/-- The loop over a property goes over all that is inside its element, as the recursion does. -/
theorem propLoop_events (parent : Parent) (inside : Xml) (tag : Tag) (p : XarProp) (children : XarProps)
    (es : List XmlEvent) :
    left (propLoop fresh parent tag p children (inside.events ++ es)) =
      (inside.readProp fresh parent tag (p, children)).bind fun read =>
        left (propLoop fresh parent tag read.1 read.2 es) := by
  induction inside generalizing tag p children es with
  | nil => rfl
  | text value next behind =>
    rw [Xml.events, List.cons_append, propLoop_text, Xml.readProp]
    dsimp only
    rw [apply_ite (Option.bind · _)]
    apply if_congr Iff.rfl rfl
    exact behind tag _ children es
  | other next behind => rw [Xml.events, List.cons_append, propLoop_other, Xml.readProp, behind]
  | element child inside next below behind =>
    rw [Xml.events, List.cons_append, List.append_assoc, propLoop_element,
      propUnserialize_element (below child (propStart child) .nil), Xml.readProp]
    rw [← Xml.prop]
    cases inside.prop fresh parent child with
    | none => rfl
    | some read => exact behind tag p _ es

theorem propUnserialize_events (parent : Parent) (tag : Tag) (inside : Xml) (es : List XmlEvent) :
    left (propUnserialize fresh parent tag
        ((if tag.isEmpty then [] else inside.events ++ [.endElement tag.name]) ++ es)) =
      (inside.prop fresh parent tag).map fun read => (read, es) :=
  propUnserialize_element (propLoop_events parent inside tag (propStart tag) .nil) es

/-! ## Files -/

theorem fileLoop_file {parent : Parent} {tag : Tag} (named : tag.name = "file".toList) {f : XarFile}
    {children : Forest XarFile} {es : List XmlEvent} :
    left (fileLoop fresh parent f children (.element tag :: es)) =
      (left (fileLoop fresh .file (fileStart tag) .nil es)).bind fun below =>
        left (fileLoop fresh parent f (children.append (.node below.1.1 below.1.2 .nil)) below.2) := by
  rw [fileLoop, if_pos named]
  exact left_bind _ _ fun below => left_carry _ _

theorem fileLoop_prop {parent : Parent} {tag : Tag} (named : tag.name ≠ "file".toList) {f : XarFile}
    {children : Forest XarFile} {es : List XmlEvent} :
    left (fileLoop fresh parent f children (.element tag :: es)) =
      (left (propUnserialize fresh parent tag es)).bind fun p =>
        left (fileLoop fresh parent { f with props := .node p.1.1 p.1.2 f.props } children p.2) := by
  rw [fileLoop, if_neg named]
  exact left_bind _ _ fun p => left_carry _ _

theorem fileLoop_text {parent : Parent} {f : XarFile} {children : Forest XarFile} {text : Text} {es : List XmlEvent} :
    left (fileLoop fresh parent f children (.text text :: es)) =
      left (fileLoop fresh parent f children es) := by
  rw [fileLoop, left_carry]

theorem fileLoop_other {parent : Parent} {f : XarFile} {children : Forest XarFile} {es : List XmlEvent} :
    left (fileLoop fresh parent f children (.other :: es)) =
      left (fileLoop fresh parent f children es) := by
  rw [fileLoop, left_carry]

theorem fileLoop_end {parent : Parent} {f : XarFile} {children : Forest XarFile} {es : List XmlEvent} :
    left (fileLoop fresh parent f children (.endElement "file".toList :: es)) = some ((f, children), es) := by
  rw [fileLoop, if_pos rfl]
  rfl

/-- No file is written as an empty element, of those a table of contents has and those below them. -/
def Xml.FilesFilled : Xml → Prop
  | .nil => True
  | .text _ next | .other next => next.FilesFilled
  | .element tag inside next =>
    (tag.name = "file".toList → tag.isEmpty = false ∧ inside.FilesFilled) ∧ next.FilesFilled

/-- The loop over a file goes over all that is inside its element, as the recursion does. -/
theorem fileLoop_events {inside : Xml} (filled : inside.FilesFilled) (parent : Parent) (f : XarFile)
    (children : Forest XarFile) (es : List XmlEvent) :
    left (fileLoop fresh parent f children (inside.events ++ es)) =
      (inside.readFile fresh parent (f, children)).bind fun read =>
        left (fileLoop fresh parent read.1 read.2 es) := by
  induction inside generalizing parent f children es with
  | nil => rfl
  | text value next behind =>
    rw [Xml.events, List.cons_append, fileLoop_text, Xml.readFile]
    exact behind filled parent f children es
  | other next behind =>
    rw [Xml.events, List.cons_append, fileLoop_other, Xml.readFile]
    exact behind filled parent f children es
  | element tag inside next below behind =>
    obtain ⟨filled, rest⟩ := filled
    rw [Xml.events, List.cons_append, List.append_assoc]
    by_cases named : tag.name = "file".toList
    · obtain ⟨some, within⟩ := filled named
      rw [fileLoop_file named, Xml.readFile, if_pos named, some, if_neg Bool.false_ne_true, List.append_assoc,
        below within]
      cases inside.readFile fresh .file (fileStart tag, .nil) with
      | none => rfl
      | some read =>
        rw [Option.bind_some, List.singleton_append, named, fileLoop_end]
        exact behind rest parent f _ es
    · rw [fileLoop_prop named, Xml.readFile, if_neg named, propUnserialize_events]
      cases inside.prop fresh parent tag with
      | none => rfl
      | some p => exact behind rest parent _ children es

/-! ## The table of contents -/

/-- No signatures in the table of contents. -/
def Xml.Unsigned : Xml → Prop
  | .nil => True
  | .text _ next | .other next => next.Unsigned
  | .element tag _ next => tag.name ≠ "signature".toList ∧ next.Unsigned

theorem tocLoop_file {tag : Tag} (named : tag.name = "file".toList) {x : XarArchive} {es : List XmlEvent} :
    tocLoop fresh x (.element tag :: es) =
      (left (fileLoop fresh .null (fileStart tag) .nil es)).bind fun f =>
        tocLoop fresh { x with files := .node f.1.1 f.1.2 x.files } f.2 := by
  rw [tocLoop, if_pos named]
  cases fileLoop fresh .null (fileStart tag) .nil es <;> rfl

theorem tocLoop_prop {tag : Tag} (named : tag.name ≠ "file".toList) (other : tag.name ≠ "signature".toList)
    {x : XarArchive} {es : List XmlEvent} :
    tocLoop fresh x (.element tag :: es) =
      (left (propUnserialize fresh x.parent tag es)).bind fun p =>
        tocLoop fresh { x with self := { x.self with props := .node p.1.1 p.1.2 x.self.props } } p.2 := by
  rw [tocLoop, if_neg named, if_neg other]
  cases propUnserialize fresh x.parent tag es <;> rfl

/-- The loop over the table of contents does what the recursion does, and goes on to what follows. -/
theorem tocLoop_events {toc : Xml} (filled : toc.FilesFilled) (unsigned : toc.Unsigned) (x : XarArchive)
    (es : List XmlEvent) :
    tocLoop fresh x (toc.events ++ es) = (toc.readToc fresh x).bind fun x => tocLoop fresh x es := by
  induction toc generalizing x with
  | nil => rfl
  | text value next behind =>
    rw [Xml.events, List.cons_append, tocLoop, Xml.readToc]
    exact behind filled unsigned x
  | other next behind =>
    rw [Xml.events, List.cons_append, tocLoop, Xml.readToc]
    exact behind filled unsigned x
  | element tag inside next _ behind =>
    obtain ⟨filled, rest⟩ := filled
    obtain ⟨other, unsigned⟩ := unsigned
    rw [Xml.events, List.cons_append, List.append_assoc]
    by_cases named : tag.name = "file".toList
    · obtain ⟨some, within⟩ := filled named
      rw [tocLoop_file named, Xml.readToc, if_pos named, some, if_neg Bool.false_ne_true, List.append_assoc,
        fileLoop_events within]
      cases inside.readFile fresh .null (fileStart tag, .nil) with
      | none => rfl
      | some read =>
        rw [Option.bind_some, List.singleton_append, named, fileLoop_end]
        exact behind rest unsigned _
    · rw [tocLoop_prop named other, Xml.readToc, if_neg named, propUnserialize_events]
      cases inside.prop fresh x.parent tag with
      | none => rfl
      | some p => exact behind rest unsigned _

theorem readProp_append (parent : Parent) (tag : Tag) (s t : Xml) (read : XarProp × XarProps) :
    (s.append t).readProp fresh parent tag read =
      (s.readProp fresh parent tag read).bind (t.readProp fresh parent tag) := by
  induction s generalizing read with
  | nil => rfl
  | text value next behind =>
    rw [Xml.append, Xml.readProp, Xml.readProp, apply_ite (Option.bind · _)]
    exact if_congr Iff.rfl rfl (behind _)
  | other next behind => exact behind read
  | element child inside next _ behind =>
    rw [Xml.append, Xml.readProp, Xml.readProp, ← Xml.prop]
    cases inside.prop fresh parent child with
    | none => rfl
    | some below => exact behind _

theorem readFile_append (parent : Parent) (s t : Xml) (read : XarFile × Forest XarFile) :
    (s.append t).readFile fresh parent read =
      (s.readFile fresh parent read).bind (t.readFile fresh parent) := by
  induction s generalizing read with
  | nil => rfl
  | text value next behind => exact behind read
  | other next behind => exact behind read
  | element tag inside next _ behind =>
    rw [Xml.append, Xml.readFile, Xml.readFile]
    split_ifs
    · cases inside.readFile fresh .file (fileStart tag, .nil) with
      | none => rfl
      | some below => exact behind _
    · cases inside.prop fresh parent tag with
      | none => rfl
      | some p => exact behind _

theorem readToc_append (s t : Xml) (x : XarArchive) :
    (s.append t).readToc fresh x = (s.readToc fresh x).bind (t.readToc fresh) := by
  induction s generalizing x with
  | nil => rfl
  | text value next behind => exact behind x
  | other next behind => exact behind x
  | element tag inside next _ behind =>
    rw [Xml.append, Xml.readToc, Xml.readToc]
    split_ifs
    · cases inside.readFile fresh .null (fileStart tag, .nil) with
      | none => rfl
      | some f => exact behind _
    · cases inside.prop fresh x.parent tag with
      | none => rfl
      | some p => exact behind _

/-! ## Blanks and comments are left out -/

theorem readProp_strip (parent : Parent) (tag : Tag) (t : Xml) (read : XarProp × XarProps) :
    t.strip.readProp fresh parent tag read = t.readProp fresh parent tag read := by
  induction t generalizing tag read with
  | nil => rfl
  | text value next behind =>
    rw [Xml.strip, Xml.readProp, Xml.readProp]
    exact if_congr Iff.rfl rfl (behind _ _)
  | other next behind => exact behind tag read
  | element child inside next below behind =>
    rw [Xml.strip, Xml.readProp, Xml.readProp, below]
    simp only [behind]

theorem prop_strip (parent : Parent) (tag : Tag) (t : Xml) :
    t.strip.prop fresh parent tag = t.prop fresh parent tag := by
  rw [Xml.prop, Xml.prop, readProp_strip]

theorem readFile_strip (parent : Parent) (t : Xml) (read : XarFile × Forest XarFile) :
    t.strip.readFile fresh parent read = t.readFile fresh parent read := by
  induction t generalizing parent read with
  | nil => rfl
  | text value next behind => exact behind parent read
  | other next behind => exact behind parent read
  | element tag inside next below behind =>
    rw [Xml.strip, Xml.readFile, Xml.readFile, below, prop_strip]
    simp only [behind]

theorem readToc_strip (t : Xml) (x : XarArchive) : t.strip.readToc fresh x = t.readToc fresh x := by
  induction t generalizing x with
  | nil => rfl
  | text value next behind => exact behind x
  | other next behind => exact behind x
  | element tag inside next _ behind =>
    rw [Xml.strip, Xml.readToc, Xml.readToc, readFile_strip, prop_strip]
    simp only [behind]

omit fresh in
theorem filesFilled_strip (t : Xml) : t.strip.FilesFilled ↔ t.FilesFilled := by
  induction t with
  | nil => rfl
  | text value next behind => exact behind
  | other next behind => exact behind
  | element tag inside next below behind =>
    exact and_congr (imp_congr_right fun _ => and_congr_right fun _ => below) behind

omit fresh in
theorem unsigned_strip (t : Xml) : t.strip.Unsigned ↔ t.Unsigned := by
  induction t with
  | nil => rfl
  | text value next behind => exact behind
  | other next behind => exact behind
  | element tag inside next _ behind => exact and_congr_right fun _ => behind

omit fresh in
theorem events_append (s t : Xml) : (s.append t).events = s.events ++ t.events := by
  induction s with
  | nil => rfl
  | text value next behind => rw [Xml.append, Xml.events, Xml.events, behind, List.cons_append]
  | other next behind => rw [Xml.append, Xml.events, Xml.events, behind, List.cons_append]
  | element tag inside next _ behind =>
    rw [Xml.append, Xml.events, Xml.events, behind, List.cons_append, List.append_assoc]

omit fresh in
/-- An element that is left of a document, with what was left out around it. -/
theorem exists_of_strip {doc inside next : Xml} {tag : Tag} (stripped : doc.strip = .element tag inside next) :
    ∃ before within rest, doc = Xml.append before (.element tag within rest) ∧ before.strip = .nil ∧
      within.strip = inside ∧ rest.strip = next := by
  induction doc with
  | nil => cases stripped
  | text value behind _ => cases stripped
  | other behind rest =>
    obtain ⟨before, within, after, rfl, none, same⟩ := rest stripped
    exact ⟨.other before, within, after, rfl, none, same⟩
  | element tag' within rest _ _ =>
    cases stripped
    exact ⟨.nil, within, rest, rfl, rfl, rfl, rfl⟩

omit fresh in
theorem events_of_strip_nil {t : Xml} (none : t.strip = .nil) : ∀ e ∈ t.events, e = .other := by
  induction t with
  | nil => simp [Xml.events]
  | text value next _ => cases none
  | other next behind => simpa [Xml.events] using behind none
  | element tag inside next _ _ => cases none

theorem xarLoop_others {es : List XmlEvent} (others : ∀ e ∈ es, e = .other) (inside : Bool) (x : XarArchive)
    (rest : List XmlEvent) : xarLoop fresh inside x (es ++ rest) = xarLoop fresh inside x rest := by
  induction es with
  | nil => rfl
  | cons e es behind =>
    obtain rfl := others e (by simp)
    rw [List.cons_append, xarLoop]
    exact behind fun e member => others e (List.mem_cons_of_mem _ member)

theorem tocLoop_rest {es : List XmlEvent} (plain : ∀ e ∈ es, ∀ tag, e ≠ .element tag) (x : XarArchive) :
    tocLoop fresh x es = some x := by
  induction es with
  | nil => rw [tocLoop]
  | cons e es behind =>
    have rest := behind fun e member => plain e (List.mem_cons_of_mem _ member)
    cases e with
    | element tag => exact absurd rfl (plain _ (by simp) tag)
    | text value => rw [tocLoop, rest]
    | endElement name => rw [tocLoop, rest]
    | other => rw [tocLoop, rest]

/-- A document with nothing but its table of contents, and blanks and comments anywhere: the archive is what the
recursion gives. -/
theorem xarUnserialize_document {doc toc : Xml} {tag : Tag} (named : tag.name = "toc".toList)
    (closed : tag.isEmpty → toc = .nil) (filled : toc.FilesFilled) (unsigned : toc.Unsigned)
    (stripped : doc.strip = .element { name := "xar".toList } (.element tag toc .nil) .nil) (x : XarArchive) :
    xarUnserialize fresh doc.events true x = (toc.readToc fresh x).map fun x => (0, x) := by
  obtain ⟨before, outer, after, rfl, plain, inside, last⟩ := exists_of_strip stripped
  obtain ⟨before', inner, after', rfl, plain', inside', last'⟩ := exists_of_strip inside
  have filled' : inner.FilesFilled := (filesFilled_strip inner).mp (inside' ▸ filled)
  have unsigned' : inner.Unsigned := (unsigned_strip inner).mp (inside' ▸ unsigned)
  have same : inner.readToc fresh x = toc.readToc fresh x := by rw [← inside', readToc_strip]
  have others : ∀ es : List XmlEvent, (∀ e ∈ es, e = .other) → ∀ e ∈ es, ∀ tag, e ≠ .element tag := by
    rintro es all e member tag rfl
    cases all _ member
  have tail : ∀ e ∈ after'.events ++ .endElement "xar".toList :: after.events, ∀ tag, e ≠ .element tag := by
    intro e member
    obtain member | rfl | member : e ∈ after'.events ∨ e = .endElement "xar".toList ∨ e ∈ after.events := by
      simpa using member
    · exact others _ (events_of_strip_nil last') e member
    · rintro tag ⟨⟩
    · exact others _ (events_of_strip_nil last) e member
  have loop : xarLoop fresh false x
      (before.append (.element { name := "xar".toList } (before'.append (.element tag inner after')) after)).events =
      tocLoop fresh x ((if tag.isEmpty then [] else inner.events ++ [.endElement tag.name]) ++
        (after'.events ++ .endElement "xar".toList :: after.events)) := by
    rw [events_append, xarLoop_others (events_of_strip_nil plain), Xml.events, xarLoop, if_neg Bool.false_ne_true,
      events_append, Bool.not_false, if_pos rfl, decide_eq_true rfl, List.append_assoc, List.append_assoc,
      xarLoop_others (events_of_strip_nil plain'), Xml.events, List.cons_append, xarLoop, if_pos named]
    simp
  rw [xarUnserialize, loop]
  by_cases empty : tag.isEmpty
  · rw [if_pos empty, List.nil_append, tocLoop_rest tail, closed empty]
    rfl
  · rw [if_neg empty, List.append_assoc, tocLoop_events filled' unsigned', same]
    cases toc.readToc fresh x with
    | none => rfl
    | some x =>
      rw [Option.bind_some, tocLoop_rest]
      · rfl
      · intro e member
        obtain rfl | member := List.mem_cons.mp member
        · rintro tag ⟨⟩
        · exact tail e member

end Reading

/-! ## What was written -/

/-- A property with its attributes turned around. -/
def XarProp.turn (p : XarProp) : XarProp := { p with attrs := p.attrs.reverse }

/-- A file with its attributes and properties turned around. -/
def XarFile.turn (f : XarFile) : XarFile where
  attrs := f.attrs.reverse
  props := (f.props.map XarProp.turn).turnOnto .nil

/-- An archive with all that turned around, and its first files in the opposite order. -/
def XarArchive.turn (x : XarArchive) : XarArchive where
  self := x.self.turn
  files := (x.files.map XarFile.turn).reverseOnto .nil

/-- A C string: its characters are bytes, and none of them ends it. -/
def CString (t : Text) : Prop := ∀ c ∈ t, 0 < c.toNat ∧ c.toNat < 256

instance : DecidablePred CString := List.decidableBAll fun c : Char => 0 < c.toNat ∧ c.toNat < 256

/-- What `xmlTextWriterWriteBase64` writes of a C string is its base64, on however many lines. -/
def WritesBase64 (toBase64 : Text → Text) : Prop :=
  ∀ value, CString value → Encodes (value.map Char.toNat) (toBase64 value)

section Writable

variable (latin1 : Text → Bool)

/-- A property that can be written: it has no value beside others below it, as the documentation says, and none of
blanks only; no attribute is written twice; a name that is encoded leaves one byte for the last group of three, which
alone ends the text that is decoded, and another does not say it is encoded. -/
structure PropWritable (p : XarProp) (children : XarProps) : Prop where
  value : ∀ value, p.value = some value → blank value = false ∧ children = .nil
  attrs : ((propTag latin1 p children).attrs.map fun a => (a.pfx, a.name)).Nodup
  name : p.key = "name".toList → ∀ a ∈ p.attrs, ¬(a.key = "enctype".toList ∧ a.value = "base64".toList)
  code : ∀ value, p.value = some value → encoded latin1 p → CString value ∧ value.length % 3 = 1

/-- Properties that can be written where some keys are those of other elements. -/
def PropsWritable (taken : List Text) (props : XarProps) : Prop :=
  props.All (PropWritable latin1) ∧ ∀ r ∈ props.roots, r.1.key ∉ taken

/-- A file that can be written: it is not empty, and its attributes differ and have no prefix. -/
structure FileWritable (f : XarFile) (children : Forest XarFile) : Prop where
  props : PropsWritable latin1 ["file".toList] f.props
  some : f.props = .nil → children ≠ .nil
  attrs : (f.attrs.map XarAttr.key).Nodup
  bare : ∀ a ∈ f.attrs, a.ns = none

/-- An archive that can be written. -/
structure ArchiveWritable (x : XarArchive) : Prop where
  self : PropsWritable latin1 ["file".toList, "signature".toList] x.self.props
  files : x.files.All (FileWritable latin1)
  attrs : x.self.attrs = []
  signed : x.signed = false

end Writable

section Writing

variable {fresh : Fresh} {latin1 : Text → Bool} {toBase64 : Text → Text}

theorem attrsUnserialize_eq (attrs : List XmlAttr) :
    attrsUnserialize attrs = (attrs.map fun a => { key := a.name, value := a.value, ns := a.pfx }).reverse := by
  induction attrs using List.reverseRecOn with
  | nil => rfl
  | append_singleton attrs a before =>
    rw [attrsUnserialize, List.foldl_append, ← attrsUnserialize, before]
    simp

/-- The attributes of a property do not say that its name is encoded. -/
theorem encodes_own {p : XarProp} {children : XarProps} (writable : PropWritable latin1 p children)
    {a : XarAttr} (member : a ∈ p.attrs) :
    (propTag latin1 p children).encodes { pfx := a.ns, name := a.key, value := a.value } = false := by
  have other := writable.name
  simp only [Tag.encodes, Tag.isName, propTag, Bool.and_eq_false_iff, decide_eq_false_iff_not]
  by_cases named : p.key = "name".toList
  · by_cases enc : a.key = "enctype".toList
    · exact .inr fun value => other named a member ⟨enc, value⟩
    · exact .inl (.inr enc)
  · exact .inl (.inl (decide_eq_false named))

theorem encodes_added {p : XarProp} {children : XarProps} (enc : encoded latin1 p = true) :
    (propTag latin1 p children).encodes { name := "enctype".toList, value := "base64".toList } = true := by
  have named : p.key = "name".toList := by
    rw [encoded, Bool.and_eq_true, decide_eq_true_eq] at enc
    exact enc.1
  simp only [Tag.encodes, Tag.isName, propTag, named, decide_true, Bool.and_self]

theorem filter_propTag {p : XarProp} {children : XarProps}
    (writable : PropWritable latin1 p children) :
    (propTag latin1 p children).attrs.filter (fun a => !(propTag latin1 p children).encodes a) =
      p.attrs.map fun a => { pfx := a.ns, name := a.key, value := a.value } := by
  rw [show (propTag latin1 p children).attrs = _ ++ _ from rfl, List.filter_append, List.filter_eq_self.mpr,
    List.filter_eq_nil_iff.mpr, List.append_nil]
  · intro a member
    split_ifs at member with enc
    · rw [List.mem_singleton.mp member, encodes_added enc]
      exact Bool.false_ne_true
    · cases member
  · intro a member
    obtain ⟨b, among, rfl⟩ := List.mem_map.mp member
    rw [encodes_own writable among]
    rfl

/-- The tag says that a name is encoded exactly if it is. -/
theorem any_propTag {p : XarProp} {children : XarProps}
    (writable : PropWritable latin1 p children) :
    (propTag latin1 p children).attrs.any (propTag latin1 p children).encodes = encoded latin1 p := by
  rw [show (propTag latin1 p children).attrs = _ ++ _ from rfl, List.any_append, List.any_eq_false.mpr, Bool.false_or]
  · split_ifs with enc
    · rw [List.any_cons, encodes_added enc, enc]
      rfl
    · rw [List.any_nil, Bool.eq_false_iff.mpr enc]
  · intro a member
    obtain ⟨b, among, rfl⟩ := List.mem_map.mp member
    rw [encodes_own writable among]
    exact Bool.false_ne_true

theorem propStart_propTag {p : XarProp} {children : XarProps}
    (writable : PropWritable latin1 p children) :
    propStart (propTag latin1 p children) = { p.turn with value := none } := by
  rw [propStart, filter_propTag writable, attrsUnserialize_eq, List.map_map]
  have same (attrs : List XarAttr) :
      attrs.map ((fun a : XmlAttr => ({ key := a.name, value := a.value, ns := a.pfx } : XarAttr)) ∘
        fun a => { pfx := a.ns, name := a.key, value := a.value }) = attrs := List.map_id attrs
  rw [same]
  rfl

/-- Base64 of a name is text to the reader. -/
theorem blank_of_encodes {bytes : List ℕ} (some : bytes ≠ []) {t : Text} (encodes : Encodes bytes t) :
    blank t = false := by
  obtain ⟨body, tail, rfl, digits, -⟩ := encodes
  have more : (b64Digits bytes).map b64Char ≠ [] := by
    match bytes, some with
    | [_], _ | [_, _], _ | _ :: _ :: _ :: _, _ => simp [b64Digits]
  rw [← digits] at more
  obtain ⟨c, member⟩ := List.exists_mem_of_ne_nil _ more
  obtain ⟨inside, counts⟩ := List.mem_filter.mp member
  rw [blank, List.all_eq_false]
  refine ⟨c, List.mem_append_left _ inside, ?_⟩
  intro space
  simp only [Bool.or_eq_true, decide_eq_true_eq] at space
  rcases space with ((rfl | rfl) | rfl) | rfl <;> exact absurd counts (by decide)

section Encoded

variable (base64 : WritesBase64 toBase64)
include base64

theorem blank_toBase64 {p : XarProp} {children : XarProps} (writable : PropWritable latin1 p children) {value : Text}
    (has : p.value = some value) (enc : encoded latin1 p) : blank (toBase64 value) = false := by
  obtain ⟨clean, one⟩ := writable.code value has enc
  apply blank_of_encodes _ (base64 value clean)
  intro none
  rw [List.map_eq_nil_iff.mp none] at one
  cases one

/-- A name that was encoded is decoded to what it was. -/
theorem fromBase64_toBase64 {p : XarProp} {children : XarProps} (writable : PropWritable latin1 p children)
    {value : Text} (has : p.value = some value) (enc : encoded latin1 p) :
    fresh.fromBase64 (toBase64 value) = some value := by
  obtain ⟨clean, one⟩ := writable.code value has enc
  have small : ∀ b ∈ value.map Char.toNat, 0 < b ∧ b < 256 := List.forall_mem_map.mpr clean
  rw [Fresh.fromBase64, xarFromBase64_ends small (base64 value clean) (by rwa [List.length_map]), List.map_map]
  have same : (Char.ofNat ∘ Char.toNat) = id := funext Char.ofNat_toNat
  rw [same, List.map_id]

/-- The value of a property is read back. -/
theorem readProp_valueText {parent : Parent} (parted : parent ≠ .text) {p : XarProp} {children : XarProps}
    (writable : PropWritable latin1 p children) (below : XarProps) :
    (valueText latin1 toBase64 p).readProp fresh parent (propTag latin1 p children)
      (propStart (propTag latin1 p children), below) = some (p.turn, below) := by
  rw [propStart_propTag writable]
  cases value : p.value with
  | none =>
    rw [valueText, value, Xml.readProp]
    simp [XarProp.turn, value]
  | some text =>
    obtain ⟨shown, -⟩ := writable.value text value
    have written : writeText (if encoded latin1 p then toBase64 text else text) =
        .text (if encoded latin1 p then toBase64 text else text) .nil := by
      have shown' : blank (if encoded latin1 p then toBase64 text else text) = false := by
        split_ifs with enc
        · exact blank_toBase64 base64 writable value enc
        · exact shown
      rw [writeText, if_neg, if_neg (by rw [shown']; exact Bool.false_ne_true)]
      intro none
      rw [none] at shown'
      cases shown'
    have decoded : (if encoded latin1 p then fresh.fromBase64 (if encoded latin1 p then toBase64 text else text)
        else some (if encoded latin1 p then toBase64 text else text)) = some text := by
      split_ifs with enc
      · exact fromBase64_toBase64 base64 writable value enc
      · rfl
    have safe : parent.faults (some text) = false := by cases parent <;> first | rfl | exact absurd rfl parted
    rw [valueText, value]
    dsimp only
    rw [written, Xml.readProp, any_propTag writable, decoded, safe, Bool.and_false, if_neg Bool.false_ne_true,
      Xml.readProp]
    simp [XarProp.turn, value]

theorem Xml.prop_propTag {parent : Parent} (parted : parent ≠ .text) {p : XarProp} {children : XarProps}
    (writable : PropWritable latin1 p children) {inside : Xml} {below : XarProps}
    (nothing : children = .nil → below = .nil)
    (read : ∀ q, inside.readProp fresh parent (propTag latin1 p children) (q, .nil) = some (q, below)) :
    ((valueText latin1 toBase64 p).append inside).prop fresh parent (propTag latin1 p children) =
      some (p.turn, below) := by
  unfold Xml.prop
  split_ifs with empty
  · rw [propTag, Bool.and_eq_true, decide_eq_true_eq, decide_eq_true_eq] at empty
    rw [propStart_propTag writable, nothing empty.2]
    simp [XarProp.turn, empty.1]
  · rw [readProp_append, readProp_valueText base64 parted writable, Option.bind_some, read]

/-- Properties are read back in front of what is there, turned around. -/
theorem readProp_serialize {parent : Parent} (parted : parent ≠ .text) {props : XarProps}
    (writable : props.All (PropWritable latin1)) (tag : Tag) (q : XarProp) (below : XarProps) :
    (xarPropSerialize latin1 toBase64 props).readProp fresh parent tag (q, below) =
      some (q, (props.map XarProp.turn).turnOnto below) := by
  induction props generalizing tag q below with
  | nil => rfl
  | node p children next inside behind =>
    obtain ⟨own, deeper, rest⟩ := writable
    rw [xarPropSerialize, Xml.readProp, ← Xml.prop,
      Xml.prop_propTag base64 parted own (by rintro rfl; rfl) fun q => inside deeper _ q .nil]
    exact behind rest tag q _

theorem Xml.prop_serialize {parent : Parent} (parted : parent ≠ .text) {p : XarProp} {children : XarProps}
    (writable : PropWritable latin1 p children)
    (deeper : children.All (PropWritable latin1)) :
    ((valueText latin1 toBase64 p).append (xarPropSerialize latin1 toBase64 children)).prop fresh parent
      (propTag latin1 p children) = some (p.turn, (children.map XarProp.turn).turnOnto .nil) :=
  Xml.prop_propTag base64 parted writable (by rintro rfl; rfl) fun q => readProp_serialize base64 parted deeper _ q .nil

/-- The same inside a file, where no property is called file. -/
theorem readFile_props {parent : Parent} (parted : parent ≠ .text) {props : XarProps}
    (writable : PropsWritable latin1 ["file".toList] props) (f : XarFile)
    (below : Forest XarFile) :
    (xarPropSerialize latin1 toBase64 props).readFile fresh parent (f, below) =
      some ({ f with props := (props.map XarProp.turn).turnOnto f.props }, below) := by
  obtain ⟨all, free⟩ := writable
  induction props generalizing f with
  | nil => rfl
  | node p children next _ behind =>
    obtain ⟨own, deeper, rest⟩ := all
    have named : (propTag latin1 p children).name ≠ "file".toList :=
      fun same => free (p, children) List.mem_cons_self (List.mem_singleton.mpr same)
    rw [xarPropSerialize, Xml.readFile, if_neg named, Xml.prop_serialize base64 parted own deeper]
    exact behind _ rest fun r member => free r (List.mem_cons_of_mem _ member)

omit base64 in
theorem fileStart_fileTag {f : XarFile} {children : Forest XarFile}
    (writable : FileWritable latin1 f children) :
    fileStart (fileTag f children) = { attrs := f.attrs.reverse } := by
  rw [fileStart, fileTag, attrsUnserialize_eq, List.map_map, List.map_map, List.map_congr_left (g := id), List.map_id]
  intro a member
  have bare := writable.bare a member
  cases a
  simpa using bare.symm

/-- Files are read back behind what is there. -/
theorem readFile_serialize {parent : Parent} (parted : parent ≠ .text) {files : Forest XarFile}
    (writable : files.All (FileWritable latin1)) (f : XarFile) (below : Forest XarFile) :
    (xarFileSerialize latin1 toBase64 files).readFile fresh parent (f, below) =
      some (f, below.append (files.map XarFile.turn)) := by
  induction files generalizing parent f below with
  | nil => rw [Forest.map, Forest.append_nil]; rfl
  | node g children next inside behind =>
    obtain ⟨own, deeper, rest⟩ := writable
    have named : (fileTag g children).name = "file".toList := rfl
    rw [xarFileSerialize, Xml.readFile, if_pos named, readFile_append, fileStart_fileTag own,
      readFile_props base64 (by simp) own.props, Option.bind_some, inside (by simp) deeper, Option.bind_some,
      behind parted rest, Forest.append_assoc]
    rfl

/-- The whole table of contents. -/
theorem readToc_files {files : Forest XarFile} (writable : files.All (FileWritable latin1))
    (x : XarArchive) :
    (xarFileSerialize latin1 toBase64 files).readToc fresh x =
      some { x with files := (files.map XarFile.turn).reverseOnto x.files } := by
  induction files generalizing x with
  | nil => rfl
  | node g children next _ behind =>
    obtain ⟨own, deeper, rest⟩ := writable
    have named : (fileTag g children).name = "file".toList := rfl
    rw [xarFileSerialize, Xml.readToc, if_pos named, readFile_append, fileStart_fileTag own,
      readFile_props base64 (by simp) own.props, Option.bind_some, readFile_serialize base64 (by simp) deeper,
      Option.bind_some,
      behind rest]
    rfl

omit base64 in
theorem XarArchive.parent_ne_text (x : XarArchive) : x.parent ≠ .text := by
  unfold parent
  split_ifs <;> simp

theorem readToc_props {props : XarProps}
    (writable : PropsWritable latin1 ["file".toList, "signature".toList] props) (x : XarArchive) :
    (xarPropSerialize latin1 toBase64 props).readToc fresh x =
      some { x with self := { x.self with props := (props.map XarProp.turn).turnOnto x.self.props } } := by
  obtain ⟨all, free⟩ := writable
  induction props generalizing x with
  | nil => rfl
  | node p children next _ behind =>
    obtain ⟨own, deeper, rest⟩ := all
    have named : (propTag latin1 p children).name ≠ "file".toList :=
      fun same => free (p, children) List.mem_cons_self (same ▸ List.mem_cons_self)
    rw [xarPropSerialize, Xml.readToc, if_neg named, Xml.prop_serialize base64 x.parent_ne_text own deeper]
    exact behind _ rest fun r member => free r (List.mem_cons_of_mem _ member)

end Encoded

/-! ### What is written is a document the loops read -/

theorem filesFilled_append {s t : Xml} (first : s.FilesFilled) (second : t.FilesFilled) : (s.append t).FilesFilled := by
  induction s with
  | nil => exact second
  | text value next behind => exact behind first
  | other next behind => exact behind first
  | element tag inside next _ behind => exact ⟨first.1, behind first.2⟩

theorem filesFilled_props {props : XarProps} (free : ∀ r ∈ props.roots, r.1.key ≠ "file".toList) :
    (xarPropSerialize latin1 toBase64 props).FilesFilled := by
  induction props with
  | nil => trivial
  | node p children next _ behind =>
    apply And.intro
    · intro same
      exact absurd same (free (p, children) List.mem_cons_self)
    · exact behind fun r member => free r (List.mem_cons_of_mem _ member)

theorem filesFilled_files {files : Forest XarFile} (writable : files.All (FileWritable latin1)) :
    (xarFileSerialize latin1 toBase64 files).FilesFilled := by
  induction files with
  | nil => trivial
  | node f children next inside behind =>
    obtain ⟨own, deeper, rest⟩ := writable
    apply And.intro _ (behind rest)
    intro _
    apply And.intro
    · rw [fileTag, Bool.and_eq_false_iff, decide_eq_false_iff_not, decide_eq_false_iff_not]
      exact not_and_or.mp fun none => own.some none.1 none.2
    · apply filesFilled_append _ (inside deeper)
      exact filesFilled_props fun r member same => own.props.2 r member (List.mem_singleton.mpr same)

theorem unsigned_append {s t : Xml} (first : s.Unsigned) (second : t.Unsigned) : (s.append t).Unsigned := by
  induction s with
  | nil => exact second
  | text value next behind => exact behind first
  | other next behind => exact behind first
  | element tag inside next _ behind => exact ⟨first.1, behind first.2⟩

theorem unsigned_props {props : XarProps} (free : ∀ r ∈ props.roots, r.1.key ≠ "signature".toList) :
    (xarPropSerialize latin1 toBase64 props).Unsigned := by
  induction props with
  | nil => trivial
  | node p children next _ behind =>
    exact ⟨free (p, children) List.mem_cons_self, behind fun r member => free r (List.mem_cons_of_mem _ member)⟩

theorem unsigned_files (files : Forest XarFile) : (xarFileSerialize latin1 toBase64 files).Unsigned := by
  induction files with
  | nil => trivial
  | node f children next _ behind =>
    have other : "file".toList ≠ "signature".toList := by decide
    exact ⟨other, behind⟩

/-- A written archive is read back with its lists of properties and attributes turned around, wherever blanks and
comments stand in the document. -/
theorem xarUnserialize_xarSerialize (base64 : WritesBase64 toBase64) {x : XarArchive}
    (writable : ArchiveWritable latin1 x) (fresh : Fresh) {doc : Xml}
    (written : doc.strip = (xarSerialize latin1 toBase64 x).strip) :
    xarUnserialize fresh doc.events true {} = some (0, x.turn) := by
  have filled : ((xarPropSerialize latin1 toBase64 x.self.props).append
      (xarFileSerialize latin1 toBase64 x.files)).FilesFilled :=
    filesFilled_append (filesFilled_props fun r member same => writable.self.2 r member (same ▸ List.mem_cons_self))
      (filesFilled_files writable.files)
  have unsigned : ((xarPropSerialize latin1 toBase64 x.self.props).append
      (xarFileSerialize latin1 toBase64 x.files)).Unsigned := by
    apply unsigned_append _ (unsigned_files x.files)
    apply unsigned_props
    intro r member same
    exact writable.self.2 r member (same ▸ List.mem_cons_of_mem _ List.mem_cons_self)
  rw [xarSerialize, Xml.strip, Xml.strip] at written
  rw [xarUnserialize_document rfl _ ((filesFilled_strip _).mpr filled) ((unsigned_strip _).mpr unsigned) written,
    readToc_strip, readToc_append, readToc_props base64 writable.self, Option.bind_some,
    readToc_files base64 writable.files]
  · simp [XarArchive.turn, XarFile.turn, writable.attrs]
  · intro empty
    rw [decide_eq_true_eq] at empty
    rw [empty]
    rfl

/-! ### Writing again what was read -/

theorem XarProp.turn_turn (p : XarProp) : p.turn.turn = p := by
  simp [turn]

theorem XarFile.turn_turn (f : XarFile) : f.turn.turn = f := by
  simp only [turn, List.reverse_reverse, Forest.map_turnOnto, Forest.map_map _ _ XarProp.turn_turn]
  rw [Forest.map, Forest.turnOnto_twice]

theorem XarArchive.turn_turn {x : XarArchive} (unsigned : x.signed = false) : x.turn.turn = x := by
  simp only [turn, XarFile.turn_turn, Forest.map_reverseOnto, Forest.map_map _ _ XarFile.turn_turn]
  rw [Forest.map, Forest.reverseOnto_twice, ← unsigned]

theorem PropWritable.turn {p : XarProp} {children : XarProps} (writable : PropWritable latin1 p children) :
    PropWritable latin1 p.turn (children.map XarProp.turn) where
  value text value := ⟨(writable.value text value).1, by rw [(writable.value text value).2]; rfl⟩
  attrs := by
    apply (List.Perm.nodup_iff _).mpr writable.attrs
    apply List.Perm.map
    exact ((List.reverse_perm p.attrs).map _).append_right _
  name named a member := writable.name named a (List.mem_reverse.mp member)
  code := writable.code

theorem PropsWritable.turn {taken : List Text} {props : XarProps} (writable : PropsWritable latin1 taken props) :
    PropsWritable latin1 taken ((props.map XarProp.turn).turnOnto .nil) := by
  apply And.intro
  · apply Forest.all_turnOnto
    · intro p children own
      exact ⟨fun text value => ⟨(own.value text value).1, by rw [(own.value text value).2]; rfl⟩, own.attrs, own.name,
        own.code⟩
    · exact Forest.all_map (fun _ _ own => own.turn) writable.1
    · trivial
  · intro r member
    obtain ⟨s, among, same⟩ | none := Forest.mem_roots_turnOnto member
    · obtain ⟨q, root, turned⟩ := Forest.mem_roots_map among
      rw [← same, ← turned]
      exact writable.2 q root
    · cases none

theorem FileWritable.turn {f : XarFile} {children : Forest XarFile} (writable : FileWritable latin1 f children) :
    FileWritable latin1 f.turn (children.map XarFile.turn) where
  props := writable.props.turn
  some none bare := writable.some (Forest.map_eq_nil (Forest.turnOnto_eq_nil none).1) (Forest.map_eq_nil bare)
  attrs := by
    rw [XarFile.turn, List.map_reverse]
    exact List.nodup_reverse.mpr writable.attrs
  bare a member := writable.bare a (List.mem_reverse.mp member)

theorem ArchiveWritable.turn {x : XarArchive} (writable : ArchiveWritable latin1 x) :
    ArchiveWritable latin1 x.turn where
  self := writable.self.turn
  files := Forest.all_reverseOnto (Forest.all_map (fun _ _ own => own.turn) writable.files) trivial
  attrs := by simp [XarArchive.turn, XarFile.turn, writable.attrs]
  signed := rfl

end Writing

/-- `UTF8Toisolat1` on UTF-8: what it cannot write starts with a byte from 196 on. -/
def fitsLatin1 (t : Text) : Bool := t.all fun c => c.toNat < 196

/-- Base64 on one line. -/
def base64Line (t : Text) : Text := (b64Digits (t.map Char.toNat)).map b64Char ++ b64Padding (t.map Char.toNat)

theorem writesBase64_line : WritesBase64 base64Line := by
  intro t clean
  have small : ∀ x ∈ b64Digits (t.map Char.toNat), x < 64 :=
    b64Digits_small (List.forall_mem_map.mpr fun c member => (clean c member).2)
  refine ⟨(b64Digits (t.map Char.toNat)).map b64Char, [], by rw [List.append_nil]; rfl, ?_, by simp⟩
  rw [List.filter_eq_self]
  intro c member
  obtain ⟨x, digit, rfl⟩ := List.mem_map.mp member
  rw [b64revtb_b64Char (small x digit), decide_eq_true_eq]
  omega

/-- A euro sign and a letter, in UTF-8. -/
def euroName : Text := [226, 130, 172, 97].map Char.ofNat

/-- The properties of a file: its type, its name and others. -/
def namedProps (type name : Text) (attrs : List XarAttr) (others : XarProps) : XarProps :=
  .node { key := "type".toList, value := some type, attrs } .nil
    (.node { key := "name".toList, value := some name } .nil others)

/-- A file with an encoded name, and a size among its properties. -/
def euroFile : XarFile where
  attrs := [{ key := "id".toList, value := ['2'] }]
  props := namedProps "file".toList euroName []
    (.node { key := "data".toList } (.node { key := "size".toList, value := some ['5'] } .nil .nil) .nil)

/-- A link to it. -/
def euroLink : XarFile where
  attrs := [{ key := "id".toList, value := ['3'] }]
  props := namedProps "hardlink".toList ['l'] [{ key := "link".toList, value := ['2'] }] .nil

/-- The directory both are in. -/
def euroDirectory : XarFile where
  attrs := [{ key := "id".toList, value := ['1'] }]
  props := namedProps "directory".toList ['d'] [] .nil

/-- An archive with that directory. -/
def nameArchive : XarArchive where
  files := .node euroDirectory (.node euroFile .nil (.node euroLink .nil .nil)) .nil

theorem propWritable_plain {p : XarProp} {children : XarProps}
    (value : ∀ value ∈ p.value, blank value = false ∧ children = .nil) (enc : encoded fitsLatin1 p = false)
    (attrs : ((propTag fitsLatin1 p children).attrs.map fun a => (a.pfx, a.name)).Nodup)
    (name : p.key = "name".toList → p.attrs = []) : PropWritable fitsLatin1 p children where
  value := value
  attrs := attrs
  name named a member := by rw [name named] at member; cases member
  code _ _ enc' := by rw [enc] at enc'; cases enc'

theorem euroName_writable : PropWritable fitsLatin1 { key := "name".toList, value := some euroName } .nil where
  value := by
    rintro value ⟨⟩
    exact ⟨by decide, rfl⟩
  attrs := by decide
  name := by rintro - a ⟨⟩
  code := by
    rintro value ⟨⟩ -
    exact ⟨by decide, rfl⟩

theorem euroFile_writable : FileWritable fitsLatin1 euroFile .nil where
  props := by
    apply And.intro _ (by simp [euroFile, namedProps, Forest.roots])
    refine ⟨?_, trivial, euroName_writable, trivial, ?_, ⟨?_, trivial, trivial⟩, trivial⟩
    all_goals exact propWritable_plain (by decide +kernel) rfl (by decide) (by decide)
  some none := by cases none
  attrs := by decide
  bare := by decide

theorem euroLink_writable : FileWritable fitsLatin1 euroLink .nil where
  props := by
    apply And.intro _ (by simp [euroLink, namedProps, Forest.roots])
    refine ⟨?_, trivial, ?_, trivial, trivial⟩
    all_goals exact propWritable_plain (by decide +kernel) (by decide) (by decide) (by decide)
  some none := by cases none
  attrs := by decide
  bare := by decide

theorem euroDirectory_writable :
    FileWritable fitsLatin1 euroDirectory (.node euroFile .nil (.node euroLink .nil .nil)) where
  props := by
    apply And.intro _ (by simp [euroDirectory, namedProps, Forest.roots])
    refine ⟨?_, trivial, ?_, trivial, trivial⟩
    all_goals exact propWritable_plain (by decide +kernel) (by decide) (by decide) (by decide)
  some none := by cases none
  attrs := by decide
  bare := by decide

theorem nameArchive_writable : ArchiveWritable fitsLatin1 nameArchive where
  self := ⟨trivial, by simp [nameArchive, Forest.roots]⟩
  files := ⟨euroDirectory_writable, ⟨euroFile_writable, trivial, euroLink_writable, trivial, trivial⟩, trivial⟩
  attrs := rfl
  signed := rfl

/-- Memory as it may be: of zeros, or of ones. -/
def freshWith (b : ℕ) : Fresh := ⟨fun _ => (b, b, b), fun value => List.replicate (3 * (value.length / 4 + 1)) b⟩

theorem xarAttrPget_eq_some {attrs : List XarAttr} (distinct : (attrs.map XarAttr.key).Nodup) (key value : Text) :
    xarAttrPget key attrs = some value ↔ ∃ a ∈ attrs, a.key = key ∧ a.value = value := by
  induction attrs with
  | nil => simp [xarAttrPget]
  | cons a attrs behind =>
    rw [List.map_cons, List.nodup_cons] at distinct
    simp only [xarAttrPget_cons, List.mem_cons, exists_eq_or_imp]
    split_ifs with here
    · apply Iff.intro
      · rintro ⟨⟩
        exact .inl ⟨here, rfl⟩
      · rintro (⟨-, rfl⟩ | ⟨b, member, same, -⟩)
        · rfl
        · exact absurd (List.mem_map.mpr ⟨b, member, same.trans here.symm⟩) distinct.1
    · rw [behind distinct.2]
      simp [here]

theorem xarAttrPget_reverse {attrs : List XarAttr} (distinct : (attrs.map XarAttr.key).Nodup) (key : Text) :
    xarAttrPget key attrs.reverse = xarAttrPget key attrs := by
  have turned : (attrs.reverse.map XarAttr.key).Nodup := by rw [List.map_reverse]; exact List.nodup_reverse.mpr distinct
  apply Option.ext
  intro value
  rw [xarAttrPget_eq_some turned, xarAttrPget_eq_some distinct]
  simp only [List.mem_reverse]

/-- Siblings differ in their keys, and attributes of one element do. -/
structure Unambiguous (f : XarFile) : Prop where
  props : f.props.Distinct XarProp.key
  attrs : (f.attrs.map XarAttr.key).Nodup
  inner : ∀ p ∈ f.props.preorder, (p.attrs.map XarAttr.key).Nodup

theorem labels_turn {f : XarFile} (clear : Unambiguous f) (path : List Text) :
    f.turn.props.labels XarProp.key path = (f.props.labels XarProp.key path).map XarProp.turn := by
  have keeps : ∀ p : XarProp, p.turn.key = p.key := fun _ => rfl
  rw [XarFile.turn, Forest.labels_turnOnto (Forest.distinct_map keeps clear.props)]
  exact Forest.labels_map keeps f.props path

theorem turn_answers {f : XarFile} (clear : Unambiguous f) : f.turn.answers = f.answers := by
  have attrs : f.turn.answers.attrs = f.answers.attrs := funext (xarAttrPget_reverse clear.attrs)
  have props : f.turn.answers.props = f.answers.props := by
    funext path
    simp only [XarFile.answers, PathMap.view, labels_turn clear]
    cases found : f.props.labels XarProp.key path with
    | none => rfl
    | some p =>
      have same := xarAttrPget_reverse (clear.inner p (Forest.mem_preorder_of_labels found))
      simp only [Option.map_some, XarProp.entry, XarProp.turn, same]
  rw [show f.turn.answers = ⟨f.turn.answers.attrs, f.turn.answers.props⟩ from rfl, attrs, props]

theorem xarPropGet_turn {f : XarFile} (clear : Unambiguous f) (key : Text) :
    xarPropGet f.turn key = xarPropGet f key := by
  rw [xarPropGet_answers, xarPropGet_answers, turn_answers clear]

theorem xarAttrGet_turn {f : XarFile} (clear : Unambiguous f) (prop : Option Text) (key : Text) :
    xarAttrGet f.turn prop key = xarAttrGet f prop key := by
  rw [xarAttrGet_answers, xarAttrGet_answers, turn_answers clear]

end FsPkg.Xar
