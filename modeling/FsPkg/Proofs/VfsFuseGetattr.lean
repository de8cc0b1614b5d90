import FsPkg.Proofs.VfsFuseRuns

/-! # What decides the reply of `vfs_fuse_getattr`

The handler asks for the low 32 bits of the number, printed with a sign, and looks at the `st_ino` of a structure
that only a record fills in, and only in part. With a record the reply is about the row of the narrowed number, with
links, times and blocks from the stack; without one it is all about the stack.
-/

namespace FsPkg.Vfs

open Sql Db Balloc

/-- The attributes are those of the record. -/
structure FuseAttr.Shows (attr : FuseAttr) (inode : PkgInode) : Prop where
  mode : attr.mode = inode.stMode
  size : attr.size = inode.stSize.toUInt64
  uid : attr.uid = inode.stUid
  gid : attr.gid = inode.stGid

/-- Two records with the same attributes. -/
structure PkgInode.Alike (inode other : PkgInode) : Prop where
  mode : inode.stMode = other.stMode
  size : inode.stSize = other.stSize
  uid : inode.stUid = other.stUid
  gid : inode.stGid = other.stGid

/-- Attributes for an inode that the table has, and `ENOENT` for one that it does not have. -/
structure Reply.Right (reply : Reply) (f : Table) (ino : Ino) : Prop where
  present : ∀ row, inodeRow f ino.toNat = some row → ∃ attr, reply = .attr attr ∧ attr.Shows (recordOf row)
  missing : inodeRow f ino.toNat = none → reply = .err enoent

/-- The handler returns, with one reply, and it is right. -/
def RepliesRight (env : FuseEnv) (st : State) (f : Table) (ino : Ino) (fi : Option FileInfo) : Prop :=
  ∃ reply st', vfsFuseGetattr ino fi env st = some ([reply], st') ∧ reply.Right f ino

/-- The narrowed number has a row, which shows the same as the row of the number; and there is memory for it. -/
def FindsAlike (env : FuseEnv) (st : State) (f : Table) (ino : Ino) : Prop :=
  ∃ row target, lookup env f ino = some row ∧ Provides (env.inodeBlock 0) st.inodeHeap ∧ ino ≠ 0 ∧
    inodeRow f ino.toNat = some target ∧ (recordOf row).Alike (recordOf target)

/-- The narrowed number has no row, and the stack happens to look like the row of the number, or like none. -/
def StackAlike (env : FuseEnv) (f : Table) (ino : Ino) : Prop :=
  lookup env f ino = none ∧
    ((inodeRow f ino.toNat = none ∧ env.stack.stIno = 0) ∨
      ∃ target, inodeRow f ino.toNat = some target ∧ env.stack.stIno ≠ 0 ∧
        (convertStat env.stack).Shows (recordOf target))

theorem attrOf_shows (stack : Stat) (ino : Ino) {inode other : PkgInode} :
    (convertStat (attrOf stack ino inode)).Shows other ↔ inode.Alike other := by
  constructor
  · rintro ⟨mode, size, uid, gid⟩
    exact ⟨mode, congrArg UInt64.toInt64 size, uid, gid⟩
  · rintro ⟨mode, size, uid, gid⟩
    exact ⟨mode, congrArg Int64.toUInt64 size, uid, gid⟩

section Getattr

variable {env : FuseEnv} {st : State} {f : Table} {ino : Ino} {fi : Option FileInfo}

/-- Attributes are a right reply exactly to an inode with a row that they show. -/
theorem right_attr {sb : Stat} : (fuseReplyAttr sb).Right f ino ↔
    ∃ target, inodeRow f ino.toNat = some target ∧ (convertStat sb).Shows (recordOf target) := by
  constructor
  · rintro ⟨present, missing⟩
    cases found : inodeRow f ino.toNat with
    | none => exact absurd (missing found) nofun
    | some target =>
      obtain ⟨_, same, shows⟩ := present target found
      cases same
      exact ⟨target, rfl, shows⟩
  · rintro ⟨target, found, shows⟩
    constructor
    · rintro row present
      rw [found] at present
      cases present
      exact ⟨convertStat sb, rfl, shows⟩
    · intro missing
      rw [found] at missing
      contradiction

theorem right_err : (Reply.err enoent).Right f ino ↔ inodeRow f ino.toNat = none := by
  constructor
  · rintro ⟨present, -⟩
    cases found : inodeRow f ino.toNat with
    | none => rfl
    | some row =>
      obtain ⟨_, same, -⟩ := present row found
      cases same
  · intro missing
    refine ⟨?_, fun _ => rfl⟩
    rintro row present
    rw [missing] at present
    contradiction

/-- Zero is printed as zero. -/
theorem lookup_zero {row : Row} (found : lookup env f 0 = some row) : inodeRow f (0 : Ino).toNat = some row := by
  unfold lookup at found
  split at found
  · exact found
  · contradiction

theorem repliesRight_of_found {row : Row} {st' : State} (found : lookup env f ino = some row)
    (provides : Provides (env.inodeBlock 0) st.inodeHeap)
    (ran : vfsFuseGetattr ino fi env st =
      some ([if ino ≠ 0 then fuseReplyAttr (attrOf env.stack ino (recordOf row)) else .err enoent], st')) :
    RepliesRight env st f ino fi ↔ FindsAlike env st f ino := by
  by_cases zero : ino = 0
  · subst zero
    apply iff_of_false
    · rintro ⟨reply, _, ran', right⟩
      rw [ran] at ran'
      cases ran'
      rw [if_neg (by simp), right_err, lookup_zero found] at right
      contradiction
    · rintro ⟨_, _, -, -, nonzero, -⟩
      exact nonzero rfl
  · rw [if_pos zero] at ran
    constructor
    · rintro ⟨reply, _, ran', right⟩
      rw [ran] at ran'
      cases ran'
      obtain ⟨target, present, shows⟩ := right_attr.mp right
      exact ⟨row, target, found, provides, zero, present, (attrOf_shows ..).mp shows⟩
    · rintro ⟨other, target, found', -, -, present, alike⟩
      rw [found] at found'
      cases found'
      exact ⟨_, _, ran, right_attr.mpr ⟨target, present, (attrOf_shows ..).mpr alike⟩⟩

theorem repliesRight_of_missing {st' : State} (missing : lookup env f ino = none)
    (ran : vfsFuseGetattr ino fi env st =
      some ([if env.stack.stIno ≠ 0 then fuseReplyAttr env.stack else .err enoent], st')) :
    RepliesRight env st f ino fi ↔ StackAlike env f ino := by
  have stated : RepliesRight env st f ino fi ↔
      (if env.stack.stIno ≠ 0 then fuseReplyAttr env.stack else .err enoent).Right f ino := by
    constructor
    · rintro ⟨reply, _, ran', right⟩
      rw [ran] at ran'
      cases ran'
      exact right
    · intro right
      exact ⟨_, _, ran, right⟩
  rw [stated, StackAlike, and_iff_right missing]
  by_cases zero : env.stack.stIno = 0
  · rw [if_neg (not_not.mpr zero), right_err]
    simp [zero]
  · rw [if_pos zero, right_attr]
    simp [zero]

/-- For every number, every state of the database and every content of the stack. -/
theorem repliesRight_iff (mounted : Mounted st f) (lawful : env.Lawful st) (ino : Ino) (fi : Option FileInfo) :
    RepliesRight env st f ino fi ↔ FindsAlike env st f ino ∨ StackAlike env f ino := by
  rcases vfsFuseGetattr_spec mounted lawful ino fi with
    ⟨missing, ran⟩ | ⟨row, found, refused, ran⟩ | ⟨row, heap, found, provides, ran, -⟩
  · rw [repliesRight_of_missing missing ran]
    refine (or_iff_right ?_).symm
    rintro ⟨row, _, found, -⟩
    rw [missing] at found
    contradiction
  · apply iff_of_false
    · rintro ⟨reply, _, ran', -⟩
      rw [ran] at ran'
      contradiction
    · rintro (⟨_, _, -, provides, -⟩ | ⟨missing, -⟩)
      · exact refused provides
      · rw [found] at missing
        contradiction
  · rw [repliesRight_of_found found provides ran]
    refine (or_iff_left ?_).symm
    rintro ⟨missing, -⟩
    rw [found] at missing
    contradiction

/-- A structure of zeros, but for its number of links. -/
def linked (stNlink : UInt64) : Stat := { stNlink }

/-- The reply does not depend on the stack exactly if there is a record and no attributes are sent: the number is zero,
or there is no memory for the record and the handler does not return. -/
theorem stack_matters_iff (mounted : Mounted st f) (lawful : env.Lawful st) (ino : Ino) (fi : Option FileInfo) :
    (∀ stack stack', (vfsFuseGetattr ino fi { env with stack } st).map Prod.fst =
      (vfsFuseGetattr ino fi { env with stack := stack' } st).map Prod.fst) ↔
        (lookup env f ino).isSome ∧ (ino = 0 ∨ ¬Provides (env.inodeBlock 0) st.inodeHeap) := by
  have lawfulWith (stack : Stat) : FuseEnv.Lawful { env with stack } st := ⟨lawful.inode, lawful.handle⟩
  cases found : lookup env f ino with
  | none =>
    refine iff_of_false ?_ (by simp)
    intro same
    have silent (stack : Stat) : (vfsFuseGetattr ino fi { env with stack } st).map Prod.fst =
        some [if stack.stIno ≠ 0 then fuseReplyAttr stack else .err enoent] := by
      rcases vfsFuseGetattr_spec mounted (lawfulWith stack) ino fi with
        ⟨-, ran⟩ | ⟨row, present, -⟩ | ⟨row, heap, present, -⟩
      · rw [ran]
        rfl
      · exact absurd (found.symm.trans present) nofun
      · exact absurd (found.symm.trans present) nofun
    have differ := same {} { stIno := 1 }
    rw [silent, silent] at differ
    revert differ
    decide
  | some row =>
    have answers (stack : Stat) : (vfsFuseGetattr ino fi { env with stack } st).map Prod.fst =
        if Provides (env.inodeBlock 0) st.inodeHeap then
          some [if ino ≠ 0 then fuseReplyAttr (attrOf stack ino (recordOf row)) else .err enoent] else none := by
      rcases vfsFuseGetattr_spec mounted (lawfulWith stack) ino fi with
        ⟨missing, -⟩ | ⟨other, -, refused, ran⟩ | ⟨other, heap, present, provides, ran, -⟩
      · exact absurd (found.symm.trans missing) nofun
      · rw [ran, if_neg refused]
        rfl
      · cases found.symm.trans present
        rw [ran, if_pos provides]
        rfl
    simp only [answers, Option.isSome_some, true_and]
    constructor
    · intro same
      by_contra neither
      obtain ⟨nonzero, provides⟩ := not_or.mp neither
      have differ := same (linked 0) (linked 1)
      rw [if_pos (not_not.mp provides), if_pos (not_not.mp provides), if_pos nonzero, if_pos nonzero] at differ
      -- the number of links is sent as it was on the stack
      have links := congrArg FuseAttr.nlink (Reply.attr.inj (List.singleton_inj.mp (Option.some.inj differ)))
      exact absurd links (show (0 : UInt32) ≠ 1 by decide)
    · rintro (rfl | refused) stack stack'
      · simp
      · rw [if_neg refused, if_neg refused]

/-- What the reply is right for: at one content of the stack, and at all of them; and when it is the same at all. It is
never both. -/
theorem getattr_right_iff (mounted : Mounted st f) (lawful : env.Lawful st) (ino : Ino) (fi : Option FileInfo) :
    (RepliesRight env st f ino fi ↔ FindsAlike env st f ino ∨ StackAlike env f ino) ∧
    ((∀ stack, RepliesRight { env with stack } st f ino fi) ↔ FindsAlike env st f ino) ∧
    ((∀ stack stack', (vfsFuseGetattr ino fi { env with stack } st).map Prod.fst =
      (vfsFuseGetattr ino fi { env with stack := stack' } st).map Prod.fst) ↔
        (lookup env f ino).isSome ∧ (ino = 0 ∨ ¬Provides (env.inodeBlock 0) st.inodeHeap)) ∧
    ¬((∀ stack, RepliesRight { env with stack } st f ino fi) ∧
      ∀ stack stack', (vfsFuseGetattr ino fi { env with stack } st).map Prod.fst =
        (vfsFuseGetattr ino fi { env with stack := stack' } st).map Prod.fst) := by
  have lawfulWith (stack : Stat) : FuseEnv.Lawful { env with stack } st := ⟨lawful.inode, lawful.handle⟩
  have always : (∀ stack, RepliesRight { env with stack } st f ino fi) ↔ FindsAlike env st f ino := by
    constructor
    · intro right
      have zero := (repliesRight_iff mounted (lawfulWith {}) ino fi).mp (right _)
      have one := (repliesRight_iff mounted (lawfulWith { stIno := 1 }) ino fi).mp (right _)
      -- a stack with `st_ino` zero asks for a missing row, one with another number for a row
      rcases zero with finds | ⟨-, ⟨missing, -⟩ | ⟨_, -, nonzero, -⟩⟩
      · exact finds
      · rcases one with finds | ⟨-, ⟨-, zero⟩ | ⟨_, present, -⟩⟩
        · exact finds
        · exact absurd (show (1 : Ino) = 0 from zero) (by decide)
        · exact absurd (missing.symm.trans present) nofun
      · exact absurd rfl nonzero
    · intro finds stack
      exact (repliesRight_iff mounted (lawfulWith stack) ino fi).mpr (.inl finds)
  refine ⟨repliesRight_iff mounted lawful ino fi, always, stack_matters_iff mounted lawful ino fi, ?_⟩
  rintro ⟨right, same⟩
  obtain ⟨_, _, -, provides, nonzero, -⟩ := always.mp right
  rcases ((stack_matters_iff mounted lawful ino fi).mp same).2 with zero | refused
  · exact nonzero zero
  · exact refused provides

end Getattr

/-- The root directory of a new database: right whatever is on the stack, and with attributes that are from there. -/
theorem getattr_right_root :
    FindsAlike smallFuseEnv smallSession.state initialFiles 1 ∧
      (∀ stack, RepliesRight { smallFuseEnv with stack } smallSession.state initialFiles 1 none) ∧
      ¬∀ stack stack', (vfsFuseGetattr 1 none { smallFuseEnv with stack } smallSession.state).map Prod.fst =
        (vfsFuseGetattr 1 none { smallFuseEnv with stack := stack' } smallSession.state).map Prod.fst := by
  obtain ⟨row, found⟩ := Option.isSome_iff_exists.mp lookup_root
  have alike : FindsAlike smallFuseEnv smallSession.state initialFiles 1 :=
    ⟨row, row, found, .inl (by decide), by decide, found, rfl, rfl, rfl, rfl⟩
  obtain ⟨-, always, -, never⟩ := getattr_right_iff smallSession_sound.1.mounted (smallFuseEnv_lawful _) 1 none
  exact ⟨alike, always.mpr alike, fun same => never ⟨always.mpr alike, same⟩⟩

/-- Something was left on the stack. -/
def usedFuseEnv : FuseEnv := { smallFuseEnv with stack := { stIno := 7 } }

/-- Inode 2 does not exist, and is answered with what is on the stack; 2^32 + 1 does not exist either, and is answered
with the root directory; and the links of the root directory are those on the stack. -/
theorem getattr_wrong :
    ¬RepliesRight usedFuseEnv smallSession.state initialFiles 2 none ∧
      ¬RepliesRight smallFuseEnv smallSession.state initialFiles 4294967297 none ∧
      (vfsFuseGetattr 1 none { smallFuseEnv with stack := linked 0 } smallSession.state).map Prod.fst ≠
        (vfsFuseGetattr 1 none { smallFuseEnv with stack := linked 1 } smallSession.state).map Prod.fst := by
  have mounted := smallSession_sound.1.mounted
  have lawful := smallFuseEnv_lawful smallSession.state
  refine ⟨?_, ?_, ?_⟩
  · have missing : inodeRow initialFiles (2 : Ino).toNat = none := by decide
    have lawfulUsed : usedFuseEnv.Lawful smallSession.state := ⟨lawful.inode, lawful.handle⟩
    rw [repliesRight_iff mounted lawfulUsed]
    rintro (⟨_, _, -, -, -, present, -⟩ | ⟨-, ⟨-, zero⟩ | ⟨_, present, -⟩⟩)
    · exact absurd (missing.symm.trans present) nofun
    · exact absurd zero (by decide)
    · exact absurd (missing.symm.trans present) nofun
  · have missing : inodeRow initialFiles (4294967297 : Ino).toNat = none := by decide
    have found : (lookup smallFuseEnv initialFiles 4294967297).isSome := by decide
    rw [repliesRight_iff mounted lawful]
    rintro (⟨_, _, -, -, -, present, -⟩ | ⟨absent, -⟩)
    · exact absurd (missing.symm.trans present) nofun
    · rw [absent] at found
      contradiction
  · decide +kernel

end FsPkg.Vfs
