import FsPkg.Proofs.PkgImportSpec
import FsPkg.Proofs.PkgTocXmlWalk

/-! # Which tables of contents are accepted

Two documents with the same elements differ in the white space between them. `pkg_toc_process` takes the second child
of the root for the table of contents, whatever that child is: in an indented document this is the first element, behind
the white space in front of it, and in a compact one it is another element or nothing at all.
-/

namespace FsPkg.PkgToc

open Db Pkg

/-! ## Elements and layout -/

def XmlNode.isElement : XmlNode → Bool
  | .element _ => true
  | _ => false

def XmlNode.isText : XmlNode → Bool
  | .text _ => true
  | _ => false

/-- White space of XML. -/
def isSpaceXml (char : Char) : Bool :=
  char = ' ' || char = '\t' || char = '\n' || char = '\r'

/-- A text of white space only. -/
def XmlNode.isBlank : XmlNode → Bool
  | .text content => content.all isSpaceXml
  | _ => false

namespace Xml

/-- The nodes beside each other from this one on. -/
def siblings : Xml → List XmlNode
  | .null => []
  | .node n _ next => n :: next.siblings

def hasElement (cur : Xml) : Bool :=
  cur.siblings.any XmlNode.isElement

/-- Without the white space between elements: a blank text goes if there is an element beside it, which `between` says
of these siblings. -/
def compact : Bool → Xml → Xml
  | _, .null => .null
  | between, .node n children next =>
    if between && n.isBlank then compact between next
    else .node n (compact children.hasElement children) (compact between next)

/-- No text directly follows another one; `behindText` says whether the node before is one. -/
def Merged : Bool → Xml → Prop
  | _, .null => True
  | behindText, .node n children next => ¬(behindText = true ∧ n.isText = true) ∧ Merged false children ∧
    Merged n.isText next

/-- The children of the second node. -/
def secondChildren : Xml → Xml
  | .node _ _ (.node _ children _) => children
  | _ => .null

end Xml

/-- A document as libxml2 delivers it: the root element, and what follows it. The parser puts adjacent texts into one
node. -/
structure XmlDocument where
  name : Text
  children : Xml
  behind : Xml
  merged : children.Merged false

namespace XmlDocument

def root (d : XmlDocument) : Xml :=
  .node (.element d.name) d.children d.behind

def compact (d : XmlDocument) : Xml :=
  d.children.compact d.children.hasElement

/-- White space was added or removed between elements. -/
def SameElements (d d' : XmlDocument) : Prop :=
  d'.name = d.name ∧ d'.compact = d.compact

/-- The root is `xar`, and its first child element is `toc`. -/
def HasToc (d : XmlDocument) : Prop :=
  d.name = ['x', 'a', 'r'] ∧ d.children.siblings.find? XmlNode.isElement = some (.element ['t', 'o', 'c'])

instance (d : XmlDocument) : Decidable d.HasToc :=
  inferInstanceAs (Decidable (_ ∧ _))

/-- The children of the root, but for the white space between elements. -/
def significant (d : XmlDocument) : List XmlNode :=
  d.children.siblings.filter fun n => !(d.children.hasElement && n.isBlank)

end XmlDocument

section Compact

variable {n : XmlNode} {children next cur : Xml} {between : Bool}

theorem XmlNode.isText_of_isBlank (blank : n.isBlank = true) : n.isText = true := by
  cases n <;> first | rfl | contradiction

theorem XmlNode.not_matchs_of_isText (text : n.isText = true) (s : Text) : ¬ n.matchs s = true := by
  cases n <;> first | contradiction | exact of_decide_eq_false rfl ∘ of_decide_eq_true

theorem Xml.compact_blank (blank : (between && n.isBlank) = true) :
    (Xml.node n children next).compact between = next.compact between := by
  rw [Xml.compact, if_pos blank]

theorem Xml.compact_node (kept : ¬(between && n.isBlank) = true) :
    (Xml.node n children next).compact between =
      .node n (children.compact children.hasElement) (next.compact between) := by
  rw [Xml.compact, if_neg kept]

theorem Xml.compact_solid (solid : ¬ n.isBlank = true) :
    (Xml.node n children next).compact between =
      .node n (children.compact children.hasElement) (next.compact between) :=
  Xml.compact_node fun both => solid (Bool.and_eq_true_iff.mp both).2

theorem Xml.siblings_compact (between : Bool) (cur : Xml) :
    (cur.compact between).siblings = cur.siblings.filter fun n => !(between && n.isBlank) := by
  induction between, cur using Xml.compact.induct with
  | case1 between => rfl
  | case2 between n children next blank ih =>
    rw [Xml.compact_blank blank, Xml.siblings, List.filter_cons_of_neg, ih]
    rwa [Bool.not_eq_true', Bool.not_eq_false]
  | case3 between n children next kept _ ih =>
    rw [Xml.compact_node kept, Xml.siblings, Xml.siblings, List.filter_cons_of_pos, ih]
    rwa [Bool.not_eq_true', ← Bool.not_eq_true]

theorem XmlDocument.significant_eq (d : XmlDocument) : d.significant = d.compact.siblings :=
  (Xml.siblings_compact ..).symm

/-- Elements stay. -/
theorem kept_and_isElement (between : Bool) (n : XmlNode) :
    (!(between && n.isBlank) && n.isElement) = n.isElement := by
  cases n with
  | element name => exact Bool.and_eq_true_iff.mpr ⟨congrArg not (Bool.and_false between), rfl⟩
  | _ => exact Bool.and_false _

theorem Xml.find_compact (between : Bool) (cur : Xml) :
    (cur.compact between).siblings.find? XmlNode.isElement = cur.siblings.find? XmlNode.isElement := by
  rw [Xml.siblings_compact, List.find?_filter]
  congr 1
  funext n
  simp only [← Bool.and_eq_true, Bool.decide_eq_true, kept_and_isElement]

theorem Xml.hasElement_compact (between : Bool) (cur : Xml) : (cur.compact between).hasElement = cur.hasElement := by
  rw [Xml.hasElement, Xml.siblings_compact, List.any_filter]
  simp only [kept_and_isElement]
  rfl

theorem Xml.compact_compact (between : Bool) (cur : Xml) :
    (cur.compact between).compact between = cur.compact between := by
  induction between, cur using Xml.compact.induct with
  | case1 between => rfl
  | case2 between n children next blank ih => rw [Xml.compact_blank blank, ih]
  | case3 between n children next kept ihChildren ihNext =>
    rw [Xml.compact_node kept, Xml.compact_node kept, Xml.hasElement_compact, ihChildren, ihNext]

theorem Xml.Merged.weaken {behindText : Bool} (merged : cur.Merged behindText) : cur.Merged false := by
  cases cur with
  | null => trivial
  | node n children next => exact ⟨fun both => Bool.false_ne_true both.1, merged.2⟩

/-- What is left between two nodes of which one was taken out is no text. -/
theorem Xml.Merged.compact {behindText : Bool} (merged : cur.Merged behindText) (between : Bool) :
    (cur.compact between).Merged behindText := by
  induction between, cur using Xml.compact.induct generalizing behindText with
  | case1 between => trivial
  | case2 between n children next blank ih =>
    obtain ⟨apart, -, rest⟩ := merged
    have text : n.isText = true := XmlNode.isText_of_isBlank (Bool.and_eq_true_iff.mp blank).2
    have first : behindText = false := Bool.eq_false_iff.mpr fun behind => apart ⟨behind, text⟩
    rw [Xml.compact_blank blank, first]
    exact (ih rest).weaken
  | case3 between n children next kept ihChildren ihNext =>
    obtain ⟨apart, below, rest⟩ := merged
    rw [Xml.compact_node kept]
    exact ⟨apart, ihChildren below, ihNext rest⟩

/-- The layout changes no place. -/
theorem filePlaces_compact (between : Bool) (cur : Xml) (position : ℕ) :
    filePlaces (cur.compact between) position = filePlaces cur position := by
  induction between, cur using Xml.compact.induct generalizing position with
  | case1 between => rfl
  | case2 between n children next blank ih =>
    have text : n.isText = true := XmlNode.isText_of_isBlank (Bool.and_eq_true_iff.mp blank).2
    rw [Xml.compact_blank blank, filePlaces_other (XmlNode.not_matchs_of_isText text _), ih]
  | case3 between n children next kept ihChildren ihNext =>
    rw [Xml.compact_node kept, filePlaces, filePlaces, ihChildren, ihNext, ihNext]

end Compact

/-! ## The run over a document -/

theorem visited_tocNodes (path : Text) (cur : Xml) (position : ℕ) :
    visited (tocNodes path cur position) =
      (filePlaces cur position).filter fun place => weight place.tail ≤ maxDepth := by
  induction cur, position using filePlaces.induct with
  | case1 position => rfl
  | case2 n children next position file _ ih =>
    obtain ⟨below, -⟩ := xmltocLoop_spec path [position] children .none (show 0 + 0 ≤ maxDepth from Nat.zero_le _)
    simp only [Nat.zero_add] at below
    have all : visited (tocNodes path (.node n children next) position) =
        [position] :: (visited (xmltocParseFile path [position] children 0).2 ++
          visited (tocNodes path next (position + 1))) := by
      rw [tocNodes, if_pos file]
      exact congrArg (_ :: ·) (visited_append _ _)
    rw [all, show visited (xmltocParseFile path [position] children 0).2 = _ from below, ih, filePlaces_file file,
      List.filter_append, List.filter_cons, if_pos, List.filter_map]
    · rfl
    · exact decide_eq_true (Nat.zero_le _)
  | case3 n children next position other ih =>
    rw [filePlaces_other other, ← ih, tocNodes, if_neg other]
    rfl

@[simp] theorem XmlNode.name_element (name : Text) : (XmlNode.element name).name = some name := rfl

/-- What becomes of a document with these children of the root: `none` for a `NULL` dereference, else whether it is
accepted. -/
def verdict (name : Text) : List XmlNode → Option Bool
  | [] => none
  | [_] => if name = ['x', 'a', 'r'] then none else some false
  | _ :: second :: _ => some (decide (name = ['x', 'a', 'r'] ∧ second.name = some ['t', 'o', 'c']))

theorem pkgTocProcessXml_spec (path : Text) (env : ImportEnv) (d : XmlDocument) (c : Conn) :
    pkgTocProcessXml path env (some d.root) c = (verdict d.name d.children.siblings).map fun accepted =>
      if accepted then (exitSuccess, tocNodes path d.children.secondChildren 0, tocStore path env noFiles c)
      else (exitFailure, [], c) := by
  obtain ⟨name, children, behind, merged⟩ := d
  cases children with
  | null => rfl
  | node first below next =>
    cases next with
    | null =>
      by_cases xar : name = ['x', 'a', 'r'] <;>
        simp [pkgTocProcessXml, XmlDocument.root, verdict, Xml.siblings, xar]
    | node second below' rest =>
      by_cases xar : name = ['x', 'a', 'r'] <;> by_cases toc : second.name = some ['t', 'o', 'c'] <;>
        simp [pkgTocProcessXml, XmlDocument.root, verdict, Xml.siblings, Xml.secondChildren, xar, toc]

/-- The checks that `pkgTocProcess` is told of, as they come out on a document. -/
def XmlDocument.checks (d : XmlDocument) : Pkg.TocEnv where
  rootIsXar := d.name = ['x', 'a', 'r']
  childIsToc := (d.children.siblings[1]?.bind XmlNode.name) = some ['t', 'o', 'c']

/-- A run that dereferences no `NULL` is one of `pkgTocProcess`, with the checks as they come out on the document. -/
theorem pkgTocProcessXml_refines {path : Text} {env : ImportEnv} {d : XmlDocument} {c c' : Conn} {code : Int32}
    {events : List TocEvent} (ran : pkgTocProcessXml path env (some d.root) c = some (code, events, c')) :
    pkgTocProcess .libxml2 path { env with toc := d.checks } noFiles c = (code, c') := by
  rw [pkgTocProcessXml_spec] at ran
  obtain ⟨accepted, found, returned⟩ := Option.map_eq_some_iff.mp ran
  have checked : accepted = (d.checks.rootIsXar && d.checks.childIsToc) := by
    rw [XmlDocument.checks]
    rcases siblings : d.children.siblings with _ | ⟨first, _ | ⟨second, behind⟩⟩
    · rw [siblings] at found
      contradiction
    · rw [siblings, verdict] at found
      split at found
      · contradiction
      · rename_i other
        rw [decide_eq_false other]
        exact (Option.some.inj found).symm
    · rw [siblings, verdict, Bool.decide_and] at found
      exact (Option.some.inj found).symm
  have same : accepted = d.checks.accepted .libxml2 := checked
  rw [pkgTocProcess_spec, ← same]
  cases accepted with
  | true =>
    obtain ⟨rfl, -, rfl⟩ := Prod.mk.injEq .. ▸ returned
    rfl
  | false =>
    obtain ⟨rfl, -, rfl⟩ := Prod.mk.injEq .. ▸ returned
    rfl

/-! ## Documents with the same elements -/

section Documents

variable {d d' : XmlDocument}

theorem XmlDocument.SameElements.refl (d : XmlDocument) : d.SameElements d :=
  ⟨rfl, rfl⟩

theorem XmlDocument.SameElements.hasElement (same : d.SameElements d') :
    d'.children.hasElement = d.children.hasElement := by
  have both := congrArg Xml.hasElement same.2
  rwa [XmlDocument.compact, XmlDocument.compact, Xml.hasElement_compact, Xml.hasElement_compact] at both

theorem XmlDocument.SameElements.significant (same : d.SameElements d') : d'.significant = d.significant := by
  rw [XmlDocument.significant_eq, XmlDocument.significant_eq, same.2]

theorem XmlDocument.significant_of_no_element (none : d.children.hasElement = false) :
    d.significant = d.children.siblings := by
  rw [XmlDocument.significant, none]
  exact List.filter_eq_self.mpr fun _ _ => rfl

theorem XmlDocument.significant_of_element (some_ : d.children.hasElement = true) :
    d.significant = d.children.siblings.filter (!·.isBlank) := by
  rw [XmlDocument.significant, some_]
  rfl

/-- A document with these children of the root in place of others, if all that changes is white space between
elements. -/
theorem XmlDocument.exists_layout {children : Xml} (merged : children.Merged false)
    (same : children.compact d.children.hasElement = d.compact) :
    ∃ d', d.SameElements d' ∧ d'.children.siblings = children.siblings := by
  refine ⟨⟨d.name, children, d.behind, merged⟩, ⟨rfl, ?_⟩, rfl⟩
  have both := congrArg Xml.hasElement same
  rw [XmlDocument.compact, Xml.hasElement_compact, Xml.hasElement_compact] at both
  rw [← same, XmlDocument.compact, both]

/-- The layout without white space between elements. -/
theorem XmlDocument.exists_squeezed (d : XmlDocument) :
    ∃ d', d.SameElements d' ∧ d'.children.siblings = d.significant := by
  rw [d.significant_eq]
  exact d.exists_layout (d.merged.compact _) (Xml.compact_compact _ _)

theorem Xml.Merged.behind_text {n : XmlNode} {children next : Xml} (merged : (Xml.node n children next).Merged false)
    (other : n.isText = false) : (Xml.node n children next).Merged true :=
  ⟨fun both => Bool.false_ne_true (other.symm.trans both.2), merged.2⟩

/-- The layout with white space in front of the first child. -/
theorem XmlDocument.exists_indented (element : d.children.hasElement = true) {x : XmlNode} {rest : List XmlNode}
    (first : d.significant = x :: rest) (other : x.isText = false) :
    ∃ d', d.SameElements d' ∧ d'.children.siblings = .text [' '] :: x :: rest := by
  have merged := d.merged.compact d.children.hasElement
  rw [d.significant_eq] at first
  cases squeezed : d.compact with
  | null =>
    rw [squeezed] at first
    contradiction
  | node n children next =>
    rw [squeezed] at first
    obtain ⟨rfl, rfl⟩ := List.cons.inj first
    rw [show Xml.compact _ _ = _ from squeezed] at merged
    have merged' : (Xml.node (.text [' ']) .null (.node n children next)).Merged false :=
      ⟨fun both => Bool.false_ne_true both.1, trivial, merged.behind_text other⟩
    apply d.exists_layout merged'
    rw [element, Xml.compact_blank rfl, ← squeezed, XmlDocument.compact, element, Xml.compact_compact]

/-- The layout with white space between the first child and the second. -/
theorem XmlDocument.exists_spaced (element : d.children.hasElement = true) {x y : XmlNode} {rest : List XmlNode}
    (first : d.significant = x :: y :: rest) (other : x.isText = false) (other' : y.isText = false) :
    ∃ d', d.SameElements d' ∧ d'.children.siblings = x :: .text [' '] :: y :: rest := by
  have merged := d.merged.compact d.children.hasElement
  have again : d.compact.compact true = d.compact := by
    rw [XmlDocument.compact, element, Xml.compact_compact]
  rw [d.significant_eq] at first
  rcases squeezed : d.compact with _ | ⟨n, children, _ | ⟨m, children', next⟩⟩
  · rw [squeezed] at first
    contradiction
  · rw [squeezed] at first
    exact absurd (List.cons.inj first).2 (List.cons_ne_nil _ _).symm
  · rw [squeezed] at first
    obtain ⟨rfl, tail⟩ := List.cons.inj first
    obtain ⟨rfl, rfl⟩ := List.cons.inj tail
    rw [show Xml.compact _ _ = _ from squeezed] at merged
    have kept : ¬ n.isBlank = true := fun blank =>
      Bool.false_ne_true (other.symm.trans (XmlNode.isText_of_isBlank blank))
    have rest := merged.2.2
    rw [other] at rest
    have merged' : (Xml.node n children (.node (.text [' ']) .null (.node m children' next))).Merged false :=
      ⟨merged.1, merged.2.1, fun both => Bool.false_ne_true (other.symm.trans both.1), trivial, rest.behind_text other'⟩
    apply d.exists_layout merged'
    rw [element, Xml.compact_solid kept, Xml.compact_blank rfl, ← Xml.compact_solid kept, ← squeezed, again]

/-! ## Acceptance -/

/-- What is meant: a document is accepted if it has a table of contents, no missing node is looked at, a document that
is refused leaves the database as it is, and white space between elements changes neither the result nor which files are
visited. -/
def DependsOnElements (path : Text) (env : ImportEnv) (c : Conn) (d : XmlDocument) : Prop :=
  ∃ code events c', pkgTocProcessXml path env (some d.root) c = some (code, events, c') ∧
    (code = exitSuccess ↔ d.HasToc) ∧ (code = exitFailure → c' = c) ∧
    ∀ d', d.SameElements d' → ∃ events', pkgTocProcessXml path env (some d'.root) c = some (code, events', c') ∧
      visited events' = visited events

/-- The children of the root that layout leaves alone are enough to find the table of contents by its position: there is
one; if the root is `xar` there are two; and in a document with a table of contents it is the second, held in place by a
text, while without one neither can be taken for it. -/
def XmlDocument.Navigable (d : XmlDocument) : Prop :=
  d.significant ≠ [] ∧ (d.name = ['x', 'a', 'r'] → ∃ x y rest, d.significant = x :: y :: rest ∧
    (d.HasToc → x.isText = true ∧ y.name = some ['t', 'o', 'c']) ∧
    (¬ d.HasToc → y.name ≠ some ['t', 'o', 'c'] ∧ (d.children.hasElement = true → x.name ≠ some ['t', 'o', 'c'])))

/-- What is meant does not depend on the layout. -/
theorem XmlDocument.SameElements.hasToc (same : d.SameElements d') : d'.HasToc ↔ d.HasToc := by
  have both := congrArg (fun cur : Xml => cur.siblings.find? XmlNode.isElement) same.2
  simp only [XmlDocument.compact, Xml.find_compact] at both
  rw [XmlDocument.HasToc, XmlDocument.HasToc, same.1, both]

theorem pkgTocProcessXml_returned {path : Text} {env : ImportEnv} {c c' : Conn} {code : Int32} {events : List TocEvent}
    (ran : pkgTocProcessXml path env (some d.root) c = some (code, events, c')) :
    verdict d.name d.children.siblings = some (decide (code = exitSuccess)) ∧
      (code = exitSuccess → events = tocNodes path d.children.secondChildren 0) := by
  rw [pkgTocProcessXml_spec] at ran
  obtain ⟨accepted, found, returned⟩ := Option.map_eq_some_iff.mp ran
  rw [found]
  cases accepted with
  | true =>
    obtain ⟨rfl, rfl, rfl⟩ := Prod.mk.injEq .. ▸ returned
    exact ⟨rfl, fun _ => rfl⟩
  | false =>
    obtain ⟨rfl, rfl, rfl⟩ := Prod.mk.injEq .. ▸ returned
    exact ⟨rfl, fun success => absurd success (by decide)⟩

theorem dependsOnElements_iff_verdict (path : Text) (env : ImportEnv) (c : Conn) (d : XmlDocument) :
    DependsOnElements path env c d ↔ ∀ d', d.SameElements d' →
      verdict d'.name d'.children.siblings = some (decide d.HasToc) ∧
        (d.HasToc → visited (tocNodes path d'.children.secondChildren 0) =
          visited (tocNodes path d.children.secondChildren 0)) := by
  constructor
  · rintro ⟨code, events, c', ran, accepted, -, layout⟩ d' same
    obtain ⟨events', ran', visits⟩ := layout d' same
    obtain ⟨-, walk⟩ := pkgTocProcessXml_returned ran
    obtain ⟨found, walk'⟩ := pkgTocProcessXml_returned ran'
    refine ⟨by rw [found, decide_eq_decide.mpr accepted], fun toc => ?_⟩
    rw [← walk (accepted.mpr toc), ← walk' (accepted.mpr toc), visits]
  · intro uniform
    have spec (d' : XmlDocument) (same : d.SameElements d') :=
      (pkgTocProcessXml_spec path env d' c).trans (congrArg _ (uniform d' same).1)
    by_cases toc : d.HasToc
    · simp only [toc, decide_true, Option.map_some, if_true] at spec
      refine ⟨_, _, _, spec d (.refl d), iff_of_true rfl toc, fun failure => absurd failure (by decide), ?_⟩
      exact fun d' same => ⟨_, spec d' same, (uniform d' same).2 toc⟩
    · simp only [toc, decide_false, Option.map_some, Bool.false_eq_true, if_false] at spec
      refine ⟨_, _, _, spec d (.refl d), iff_of_false (by decide) toc, fun _ => rfl, ?_⟩
      exact fun d' same => ⟨_, spec d' same, rfl⟩

theorem XmlNode.name_ne_toc_of_isText {n : XmlNode} (text : n.isText = true) : n.name ≠ some ['t', 'o', 'c'] := by
  cases n <;> first | contradiction | exact of_decide_eq_false rfl

theorem filter_blank {n : XmlNode} (blank : n.isBlank = true) (behind : List XmlNode) :
    (n :: behind).filter (!·.isBlank) = behind.filter (!·.isBlank) := by
  rw [List.filter_cons, blank]
  rfl

theorem filter_solid {n : XmlNode} (solid : ¬ n.isBlank = true) (behind : List XmlNode) :
    (n :: behind).filter (!·.isBlank) = n :: behind.filter (!·.isBlank) := by
  rw [List.filter_cons, Bool.eq_false_iff.mpr solid]
  rfl

/-- Behind a text, the next node is the next that layout leaves alone. -/
theorem Xml.Merged.next {cur : Xml} (merged : cur.Merged true) {x : XmlNode} {rest : List XmlNode}
    (kept : cur.siblings.filter (!·.isBlank) = x :: rest) :
    x.isText = false ∧ ∃ children next, cur = .node x children next := by
  cases cur with
  | null => contradiction
  | node n children next =>
    have other : n.isText = false := Bool.eq_false_iff.mpr fun text => merged.1 ⟨rfl, text⟩
    have solid : ¬ n.isBlank = true := fun blank =>
      Bool.false_ne_true (other.symm.trans (XmlNode.isText_of_isBlank blank))
    rw [Xml.siblings, filter_solid solid] at kept
    obtain ⟨rfl, -⟩ := List.cons.inj kept
    exact ⟨other, children, next, rfl⟩

/-- A text in front holds itself and the next child in place. -/
theorem Xml.Merged.held {cur : Xml} (merged : cur.Merged false) {x y : XmlNode} {rest : List XmlNode}
    (kept : cur.siblings.filter (!·.isBlank) = x :: y :: rest) (text : x.isText = true) :
    ∃ children children' next, cur = .node x children (.node y children' next) := by
  cases cur with
  | null => contradiction
  | node n children next =>
    by_cases blank : n.isBlank = true
    · have behind := merged.2.2
      rw [XmlNode.isText_of_isBlank blank] at behind
      rw [Xml.siblings, filter_blank blank] at kept
      exact absurd ((behind.next kept).1.symm.trans text) Bool.false_ne_true
    · rw [Xml.siblings, filter_solid blank] at kept
      obtain ⟨rfl, tail⟩ := List.cons.inj kept
      have behind := merged.2.2
      rw [text] at behind
      obtain ⟨-, children', next', rfl⟩ := behind.next tail
      exact ⟨children, children', next', rfl⟩

/-- The second child is one of the first two that layout leaves alone, or white space. -/
theorem exists_second {siblings : List XmlNode} {x y : XmlNode} {rest : List XmlNode}
    (kept : siblings.filter (!·.isBlank) = x :: y :: rest) :
    ∃ first second behind, siblings = first :: second :: behind ∧
      (second = x ∨ second = y ∨ second.isBlank = true) := by
  rcases siblings with _ | ⟨first, _ | ⟨second, behind⟩⟩
  · contradiction
  · have short := congrArg List.length kept
    have bound := List.length_filter_le (!·.isBlank) [first]
    simp only [List.length_cons, List.length_nil] at short bound
    omega
  · refine ⟨first, second, behind, rfl, ?_⟩
    by_cases blank : second.isBlank = true
    · exact .inr (.inr blank)
    · by_cases blank' : first.isBlank = true
      · rw [filter_blank blank', filter_solid blank] at kept
        exact .inl (List.cons.inj kept).1
      · rw [filter_solid blank', filter_solid blank] at kept
        exact .inr (.inl (List.cons.inj (List.cons.inj kept).2).1)

theorem XmlDocument.HasToc.hasElement (toc : d.HasToc) : d.children.hasElement = true :=
  List.any_eq_true.mpr ⟨_, List.mem_of_find?_eq_some toc.2, rfl⟩

/-- In a navigable document the table of contents is the second child, in every layout. -/
theorem XmlDocument.Navigable.toc (navigable : d.Navigable) (toc : d.HasToc) (same : d.SameElements d') :
    ∃ x y children children' next, d'.children = .node x children (.node y children' next) ∧
      y.name = some ['t', 'o', 'c'] ∧
      ∃ squeezed behind, d.compact = .node x squeezed (.node y (children'.compact children'.hasElement) behind) := by
  obtain ⟨x, y, rest, kept, held, -⟩ := navigable.2 toc.1
  obtain ⟨text, second⟩ := held toc
  have element : d'.children.hasElement = true := same.hasElement.trans toc.hasElement
  rw [← same.significant, XmlDocument.significant_of_element element] at kept
  obtain ⟨children, children', next, shape⟩ := d'.merged.held kept text
  refine ⟨x, y, children, children', next, shape, second, ?_⟩
  -- neither of the two is white space
  rw [shape, Xml.siblings, Xml.siblings] at kept
  have solid : ¬ x.isBlank = true := by
    intro blank
    have merged := d'.merged
    rw [shape] at merged
    have other := merged.2.2.1
    rw [text] at other
    rw [filter_blank blank, filter_solid fun blank' => other ⟨rfl, XmlNode.isText_of_isBlank blank'⟩] at kept
    obtain ⟨rfl, -⟩ := List.cons.inj kept
    exact XmlNode.name_ne_toc_of_isText text second
  have solid' : ¬ y.isBlank = true := fun blank =>
    XmlNode.name_ne_toc_of_isText (XmlNode.isText_of_isBlank blank) second
  refine ⟨children.compact children.hasElement, next.compact true, ?_⟩
  rw [← same.2, XmlDocument.compact, element, shape, Xml.compact_solid solid, Xml.compact_solid solid']

/-- In a navigable document the second child tells whether there is a table of contents, in every layout. -/
theorem XmlDocument.Navigable.verdict (navigable : d.Navigable) (same : d.SameElements d') :
    verdict d'.name d'.children.siblings = some (decide d.HasToc) := by
  by_cases toc : d.HasToc
  · obtain ⟨x, y, children, children', next, shape, second, -⟩ := navigable.toc toc same
    rw [shape, Xml.siblings, Xml.siblings, PkgToc.verdict, same.1, Option.some.injEq, decide_eq_decide]
    exact iff_of_true ⟨toc.1, second⟩ toc
  · have kept := same.significant
    rw [decide_eq_false toc]
    by_cases xar : d.name = ['x', 'a', 'r']
    · obtain ⟨x, y, rest, shape, -, other⟩ := navigable.2 xar
      obtain ⟨notSecond, notFirst⟩ := other toc
      rw [shape] at kept
      obtain ⟨first, second, behind, siblings, named⟩ : ∃ first second behind,
          d'.children.siblings = first :: second :: behind ∧ second.name ≠ some ['t', 'o', 'c'] := by
        cases element : d'.children.hasElement with
        | false =>
          rw [XmlDocument.significant_of_no_element element] at kept
          exact ⟨x, y, rest, kept, notSecond⟩
        | true =>
          rw [XmlDocument.significant_of_element element] at kept
          obtain ⟨first, second, behind, siblings, which⟩ := exists_second kept
          refine ⟨first, second, behind, siblings, ?_⟩
          rcases which with rfl | rfl | blank
          · exact notFirst (same.hasElement.symm.trans element)
          · exact notSecond
          · exact XmlNode.name_ne_toc_of_isText (XmlNode.isText_of_isBlank blank)
      rw [siblings, PkgToc.verdict, decide_eq_false fun both => named both.2]
    · rcases siblings : d'.children.siblings with _ | ⟨first, _ | ⟨second, behind⟩⟩
      · rw [XmlDocument.significant, siblings] at kept
        exact absurd kept.symm navigable.1
      · rw [PkgToc.verdict, same.1, if_neg xar]
      · rw [PkgToc.verdict, same.1, decide_eq_false fun both => xar both.1]

theorem XmlDocument.Navigable.visits (navigable : d.Navigable) (toc : d.HasToc) (same : d.SameElements d')
    (path : Text) : visited (tocNodes path d'.children.secondChildren 0) =
      visited (tocNodes path d.children.secondChildren 0) := by
  obtain ⟨x, y, _, below, _, shape, -, _, _, squeezed⟩ := navigable.toc toc (.refl d)
  obtain ⟨x', y', _, below', _, shape', -, _, _, squeezed'⟩ := navigable.toc toc same
  obtain ⟨-, -, inner⟩ := Xml.node.injEq .. ▸ squeezed.symm.trans squeezed'
  obtain ⟨-, inner, -⟩ := Xml.node.injEq .. ▸ inner
  rw [visited_tocNodes, visited_tocNodes, shape, shape', Xml.secondChildren, Xml.secondChildren,
    ← filePlaces_compact below.hasElement below, ← filePlaces_compact below'.hasElement below', inner]

/-- The code meets the intention just for the documents that can be navigated by position. -/
theorem pkgTocProcessXml_depends_iff (path : Text) (env : ImportEnv) (c : Conn) (d : XmlDocument) :
    DependsOnElements path env c d ↔ d.Navigable := by
  rw [dependsOnElements_iff_verdict]
  constructor
  · intro uniform
    obtain ⟨squeezed, same, siblings⟩ := d.exists_squeezed
    have found := (uniform squeezed same).1
    rw [siblings, same.1] at found
    rcases kept : d.significant with _ | ⟨x, _ | ⟨y, rest⟩⟩
    · rw [kept] at found
      contradiction
    · rw [kept] at found
      refine ⟨by rw [kept]; exact List.cons_ne_nil _ _, fun xar => ?_⟩
      rw [verdict, if_pos xar] at found
      contradiction
    · refine ⟨by rw [kept]; exact List.cons_ne_nil _ _, fun xar => ⟨x, y, rest, kept, fun toc => ?_, fun none => ?_⟩⟩
      · rw [kept, verdict, Option.some.injEq, decide_eq_decide] at found
        have second : y.name = some ['t', 'o', 'c'] := (found.mpr toc).2
        refine ⟨?_, second⟩
        by_contra other
        -- white space behind the first child would be taken for the table of contents
        obtain ⟨spaced, same', siblings'⟩ := XmlDocument.exists_spaced toc.hasElement kept
          (Bool.eq_false_iff.mpr other) (Bool.eq_false_iff.mpr fun text => XmlNode.name_ne_toc_of_isText text second)
        have found' := (uniform spaced same').1
        rw [siblings', verdict, Option.some.injEq, decide_eq_decide] at found'
        exact XmlNode.name_ne_toc_of_isText rfl (found'.mpr toc).2
      · rw [kept, verdict, Option.some.injEq, decide_eq_decide] at found
        refine ⟨fun second => none (found.mp ⟨xar, second⟩), fun element first => ?_⟩
        -- white space in front would move the first child to the second place
        obtain ⟨indented, same', siblings'⟩ := XmlDocument.exists_indented element kept
          (Bool.eq_false_iff.mpr fun text => XmlNode.name_ne_toc_of_isText text first)
        have found' := (uniform indented same').1
        rw [siblings', verdict, Option.some.injEq, decide_eq_decide, same'.1] at found'
        exact none (found'.mp ⟨xar, first⟩)
  · intro navigable d' same
    exact ⟨navigable.verdict same, fun toc => navigable.visits toc same path⟩

end Documents

/-- `<xar><toc/></xar>`, and the same with white space in front of `toc`. -/
def compactDocument : XmlDocument where
  name := ['x', 'a', 'r']
  children := .node (.element ['t', 'o', 'c']) .null .null
  behind := .null
  merged := ⟨fun both => Bool.false_ne_true both.1, trivial, trivial⟩

def indentedDocument : XmlDocument where
  name := ['x', 'a', 'r']
  children := .node (.text ['\n']) .null (.node (.element ['t', 'o', 'c']) .null .null)
  behind := .null
  merged := ⟨fun both => Bool.false_ne_true both.1, trivial, fun both => Bool.false_ne_true both.2, trivial, trivial⟩

/-- The indented document is accepted, and the compact one dereferences `NULL`. -/
theorem pkgTocProcessXml_compact :
    compactDocument.SameElements indentedDocument ∧ compactDocument.HasToc ∧
      (pkgTocProcessXml ['/', 'a'] { add := { stat := .ok 1 } } (some indentedDocument.root)
        { committed := fun _ => none }).map Prod.fst = some exitSuccess ∧
      pkgTocProcessXml ['/', 'a'] { add := { stat := .ok 1 } } (some compactDocument.root)
        { committed := fun _ => none } = none ∧
      ¬ DependsOnElements ['/', 'a'] { add := { stat := .ok 1 } } { committed := fun _ => none } compactDocument := by
  refine ⟨⟨rfl, rfl⟩, by decide, rfl, rfl, ?_⟩
  rintro ⟨code, events, c', ran, -⟩
  contradiction

end FsPkg.PkgToc
