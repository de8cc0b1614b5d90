import FsPkg.Machine.Run
import FsPkg.Proofs.BallocRuns
import FsPkg.Proofs.DbSqliteInitialize
import FsPkg.Proofs.VfsFuseSpec

/-! # Replies and handles of the FUSE handlers

A request is to be answered once, and a handle is to be held as long as its file is open. `vfs_fuse_open` goes on after
it has refused a file, so it answers twice and keeps the handle it took; `vfs_fuse_release` gives no handle back. The
records of `inode_heap` are given back by every request.
-/

namespace FsPkg.Vfs

open Machine Sql Db Balloc

/-! ## Replies -/

/-- The requests whose handlers query the database. -/
def FuseRequest.queries : FuseRequest → Bool
  | .open_ _ _ => true
  | .getattr _ _ => true
  | _ => false

/-- All other handlers reply at once and touch nothing. -/
theorem vfsFuseOps_immediate {env : FuseEnv} {request : FuseRequest} {st st' : State} {replies : List Reply}
    (immediate : request.queries = false) (ran : vfsFuseOps env request st = some (replies, st')) :
    (∃ errno, replies = [.err errno]) ∧ st' = st := by
  obtain ⟨errno, replied⟩ : ∃ errno, vfsFuseOps env request st = replyErr errno st := by
    cases request with
    | open_ ino fi => contradiction
    | getattr ino fi => contradiction
    | _ => exact ⟨_, rfl⟩
  rw [replied] at ran
  cases ran
  exact ⟨⟨errno, rfl⟩, rfl⟩

/-- One reply; an error that goes by `O_CREAT` if there is no row for the file to be opened. -/
structure Answered (f : Table) (request : FuseRequest) (replies : List Reply) : Prop where
  once : replies.length = 1
  absent : ∀ ino fi, request = .open_ ino fi → inodeRow f ino.toNat = none →
    replies = [.err (if fi.flags &&& oCreat = 0 then enoent else erofs)]

/-- An open finds a row, both by the number as it is and by the number as it is printed. A record can be had for
every row that is found. -/
def Answerable (env : FuseEnv) (st : State) (f : Table) : FuseRequest → Prop
  | .open_ ino _ => (lookup env f ino).isSome ∧ (inodeRow f ino.toNat).isSome ∧
      Provides (env.inodeBlock 0) st.inodeHeap
  | .getattr ino _ => (lookup env f ino).isSome → Provides (env.inodeBlock 0) st.inodeHeap
  | _ => True

section Replies

variable {env : FuseEnv} {st : State} {f : Table}

theorem open_answered_iff (mounted : Mounted st f) (lawful : env.Lawful st) (ino : Ino) (fi : FileInfo) :
    (∃ replies st', vfsFuseOpen ino fi env st = some (replies, st') ∧ Answered f (.open_ ino fi) replies) ↔
      Answerable env st f (.open_ ino fi) := by
  obtain ⟨fh, handles, -, absent | refused | opened⟩ := vfsFuseOpen_spec mounted lawful ino fi
  · obtain ⟨missing, ran⟩ := absent
    apply iff_of_false
    · rintro ⟨replies, st', ran', answered⟩
      rw [ran] at ran'
      cases ran'
      exact absurd answered.once (by simp)
    · rintro ⟨found, -⟩
      rw [missing] at found
      contradiction
  · obtain ⟨row, -, refused, ran⟩ := refused
    refine iff_of_false ?_ fun answerable => refused answerable.2.2
    rintro ⟨replies, st', ran', -⟩
    rw [ran] at ran'
    contradiction
  · obtain ⟨row, heap, found, provides, ran, -⟩ := opened
    constructor
    · rintro ⟨replies, st', ran', answered⟩
      rw [ran] at ran'
      cases ran'
      refine ⟨by rw [found, Option.isSome_some], ?_, provides⟩
      by_contra missing
      rw [Option.not_isSome_iff_eq_none] at missing
      have refused := answered.absent ino fi rfl missing
      simp at refused
    · rintro ⟨-, present, -⟩
      refine ⟨_, _, ran, rfl, ?_⟩
      rintro _ _ same missing
      cases same
      rw [missing] at present
      contradiction

theorem getattr_answered_iff (mounted : Mounted st f) (lawful : env.Lawful st) (ino : Ino) (fi : Option FileInfo) :
    (∃ replies st', vfsFuseGetattr ino fi env st = some (replies, st') ∧ Answered f (.getattr ino fi) replies) ↔
      Answerable env st f (.getattr ino fi) := by
  rcases vfsFuseGetattr_spec mounted lawful ino fi with
    ⟨missing, ran⟩ | ⟨row, found, refused, ran⟩ | ⟨row, heap, -, provides, ran, -⟩
  · apply iff_of_true ⟨_, _, ran, rfl, by simp⟩
    intro found
    rw [missing] at found
    contradiction
  · refine iff_of_false ?_ fun answerable => refused (answerable (by rw [found, Option.isSome_some]))
    rintro ⟨replies, st', ran', -⟩
    rw [ran] at ran'
    contradiction
  · exact iff_of_true ⟨_, _, ran, rfl, by simp⟩ fun _ => provides

/-- A request is answered once, and an open of a file that does not exist with the error it should have, exactly if it
is answerable. -/
theorem fuse_replies_once (mounted : Mounted st f) (lawful : env.Lawful st) (request : FuseRequest) :
    (∃ replies st', vfsFuseOps env request st = some (replies, st') ∧ Answered f request replies) ↔
      Answerable env st f request := by
  cases request with
  | open_ ino fi => exact open_answered_iff mounted lawful ino fi
  | getattr ino fi => exact getattr_answered_iff mounted lawful ino fi
  | _ => exact iff_of_true ⟨_, _, rfl, rfl, by simp⟩ trivial

end Replies

/-! ## Sessions -/

/-- The state, and the handles of the opens that were answered with success and not yet released. -/
structure Session where
  state : State
  handles : List (Option MemBlock) := []

/-- A request; a change of the database; the timer that collects empty blocks. -/
inductive SessionEvent where
  | request (env : FuseEnv) (request : FuseRequest)
  | database (conn : Conn)
  | blockheapGc

/-- A request is over with its first reply. -/
def Session.after (s : Session) (state : State) : FuseRequest → List Reply → Session
  | .open_ _ _, .open_ fi :: _ => { state, handles := fi.fh :: s.handles }
  | .release _ fi, _ => { state, handles := s.handles.erase fi.fh }
  | _, _ => { s with state }

/-- Only handles of open files are released. -/
inductive SessionStep : Session → SessionEvent → Session → Prop
  | request {s : Session} {env : FuseEnv} {request : FuseRequest} {replies : List Reply} {state : State}
      (lawful : env.Lawful s.state) (held : ∀ ino fi, request = .release ino fi → fi.fh ∈ s.handles)
      (ran : vfsFuseOps env request s.state = some (replies, state)) :
      SessionStep s (.request env request) (s.after state request replies)
  | database {s : Session} {conn : Conn} {f : Table} (table : FilesTable conn.view f) :
      SessionStep s (.database conn) { s with state := { s.state with conn } }
  | blockheapGc {s : Session} : SessionStep s .blockheapGc { s with state := { s.state with
      inodeHeap := blockheapGarbagecollect s.state.inodeHeap
      handleHeap := blockheapGarbagecollect s.state.handleHeap } }

/-- `sizeof(struct pkg_inode)`. -/
def sizeofInode : UInt64 := 40

/-- `sizeof(struct vfs_handle)`. -/
def sizeofHandle : UInt64 := 8224

/-- After initialization, before the first request. -/
structure Session.Initial (s : Session) : Prop where
  table : ∃ f, FilesTable s.state.conn.view f
  inodeHeap : ∃ count : Int32, 1 ≤ count ∧ Created sizeofInode count s.state.inodeHeap
  handleHeap : ∃ count : Int32, 1 ≤ count ∧ Created sizeofHandle count s.state.handleHeap
  handles : s.handles = []

/-- As many handles are allocated as files are open, and no record is. -/
structure Session.Accounts (s : Session) : Prop where
  handles : s.state.handleHeap.allocated.length = s.handles.length
  inodes : s.state.inodeHeap.allocated = []

/-- A file is opened that exists, with memory for its handle, or one that does not, without. Nothing is released. -/
def Session.Keeps (s : Session) : SessionEvent → Prop
  | .request env (.open_ ino _) => ∀ f, s.state.conn.view "files".toList = some f →
      ((lookup env f ino).isSome ↔ Provides env.handleBlock s.state.handleHeap)
  | .request _ (.release _ _) => False
  | _ => True

/-- What holds between any two events. -/
structure Session.Sound (s : Session) (f : Table) : Prop where
  mounted : Mounted s.state f
  inodes : s.state.inodeHeap.allocated = []

/-- By how much an event changes the number of allocated handles and the number of open files. -/
def Session.change (s : Session) (f : Table) : SessionEvent → ℤ × ℤ
  | .request env (.open_ ino _) =>
    (if Provides env.handleBlock s.state.handleHeap then 1 else 0, if (lookup env f ino).isSome then 1 else 0)
  | .request _ (.release _ _) => (0, -1)
  | _ => (0, 0)

theorem allocated_nil_of_live {β : Type} {bh heap : BlockHeap β} (inv : Invariant bh) (inv' : Invariant heap)
    (live : heap.live = bh.live) (empty : bh.allocated = []) : heap.allocated = [] := by
  have same := inv.length_allocated_congr inv' fun ptr => by rw [live]
  rw [empty] at same
  exact List.length_eq_zero_iff.mp same

theorem Taken.length_cast {β : Type} {os : BlockEnv} {bh heap : BlockHeap β} (taken : Taken os bh heap) :
    (heap.allocated.length : ℤ) = bh.allocated.length + if Provides os bh then 1 else 0 := by
  rw [taken.length, Nat.cast_add, Nat.cast_ite, Nat.cast_one, Nat.cast_zero]

section Sessions

variable {s s' : Session} {f : Table} {event : SessionEvent} {env : FuseEnv} {replies : List Reply} {state : State}

/-- What an event leaves as it should be, and how it changes the two numbers. -/
structure Session.Step (s : Session) (f : Table) (event : SessionEvent) (s' : Session) : Prop where
  sound : ∃ f', s'.Sound f'
  allocated : (s'.state.handleHeap.allocated.length : ℤ) =
    s.state.handleHeap.allocated.length + (s.change f event).1
  handles : (s'.handles.length : ℤ) = s.handles.length + (s.change f event).2

namespace Session.Sound

theorem open_ (sound : s.Sound f) (lawful : env.Lawful s.state) {ino : Ino} {fi : FileInfo}
    (ran : vfsFuseOpen ino fi env s.state = some (replies, state)) :
    s.Step f (.request env (.open_ ino fi)) (s.after state (.open_ ino fi) replies) := by
  obtain ⟨fh, handles, taken, absent | refused | opened⟩ := vfsFuseOpen_spec sound.mounted lawful ino fi
  · obtain ⟨missing, ran'⟩ := absent
    rw [ran'] at ran
    cases ran
    refine ⟨⟨f, ⟨sound.mounted.table, sound.mounted.inodes, taken.invariant⟩, sound.inodes⟩, taken.length_cast, ?_⟩
    simp only [Session.after, Session.change, missing]
    rfl
  · obtain ⟨row, -, -, ran'⟩ := refused
    rw [ran'] at ran
    contradiction
  · obtain ⟨row, heap, found, -, ran', inv, live⟩ := opened
    rw [ran'] at ran
    cases ran
    have empty := allocated_nil_of_live sound.mounted.inodes inv live sound.inodes
    refine ⟨⟨f, ⟨sound.mounted.table, inv, taken.invariant⟩, empty⟩, taken.length_cast, ?_⟩
    simp only [Session.after, Session.change, found]
    rfl

theorem getattr (sound : s.Sound f) (lawful : env.Lawful s.state) {ino : Ino} {fi : Option FileInfo}
    (ran : vfsFuseGetattr ino fi env s.state = some (replies, state)) :
    s.Step f (.request env (.getattr ino fi)) (s.after state (.getattr ino fi) replies) := by
  rcases vfsFuseGetattr_spec sound.mounted lawful ino fi with
    ⟨-, ran'⟩ | ⟨row, -, -, ran'⟩ | ⟨row, heap, -, -, ran', inv, live⟩
  · rw [ran'] at ran
    cases ran
    exact ⟨⟨f, sound⟩, (add_zero _).symm, (add_zero _).symm⟩
  · rw [ran'] at ran
    contradiction
  · rw [ran'] at ran
    cases ran
    have empty := allocated_nil_of_live sound.mounted.inodes inv live sound.inodes
    exact ⟨⟨f, ⟨sound.mounted.table, inv, sound.mounted.handles⟩, empty⟩, (add_zero _).symm, (add_zero _).symm⟩

theorem step (sound : s.Sound f) (step : SessionStep s event s') : s.Step f event s' := by
  cases step with
  | request lawful held ran =>
    rename_i env request replies state
    cases request with
    | open_ ino fi => exact sound.open_ lawful ran
    | getattr ino fi => exact sound.getattr lawful ran
    | release ino fi =>
      obtain ⟨-, rfl⟩ := vfsFuseOps_immediate (by rfl) ran
      refine ⟨⟨f, sound.mounted, sound.inodes⟩, (add_zero _).symm, ?_⟩
      have positive := List.length_pos_of_mem (held ino fi rfl)
      simp only [Session.after, Session.change, List.length_erase_of_mem (held ino fi rfl)]
      omega
    | _ =>
      obtain ⟨-, rfl⟩ := vfsFuseOps_immediate (by rfl) ran
      exact ⟨⟨f, sound.mounted, sound.inodes⟩, (add_zero _).symm, (add_zero _).symm⟩
  | database table =>
    exact ⟨⟨_, ⟨table, sound.mounted.inodes, sound.mounted.handles⟩, sound.inodes⟩, (add_zero _).symm,
      (add_zero _).symm⟩
  | blockheapGc =>
    obtain ⟨inodes, -, -, inodesLive, -⟩ := sound.mounted.inodes.gc_spec
    obtain ⟨handles, -, -, handlesLive, -⟩ := sound.mounted.handles.gc_spec
    have empty := allocated_nil_of_live sound.mounted.inodes inodes inodesLive sound.inodes
    have same := sound.mounted.handles.length_allocated_congr handles fun ptr => by rw [handlesLive]
    refine ⟨⟨f, ⟨sound.mounted.table, inodes, handles⟩, empty⟩, ?_, (add_zero _).symm⟩
    simp only [same]
    exact (add_zero _).symm

end Session.Sound

theorem Session.keeps_open_iff (table : FilesTable s.state.conn.view f) (env : FuseEnv) (ino : Ino) (fi : FileInfo) :
    s.Keeps (.request env (.open_ ino fi)) ↔
      ((lookup env f ino).isSome ↔ Provides env.handleBlock s.state.handleHeap) := by
  constructor
  · exact fun keeps => keeps f table.files
  · intro same f' files
    rw [table.files] at files
    cases files
    exact same

theorem Session.change_eq_iff (table : FilesTable s.state.conn.view f) :
    (s.change f event).1 = (s.change f event).2 ↔ s.Keeps event := by
  cases event with
  | request env request =>
    cases request with
    | open_ ino fi =>
      rw [Session.keeps_open_iff table, Session.change]
      by_cases found : (lookup env f ino).isSome
      · by_cases provides : Provides env.handleBlock s.state.handleHeap
        · simp [found, provides]
        · simp [found, provides]
      · by_cases provides : Provides env.handleBlock s.state.handleHeap
        · simp [found, provides]
        · simp [found, provides]
    | release ino fi => exact iff_of_false (by simp [Session.change]) id
    | _ => exact iff_of_true rfl trivial
  | database conn => exact iff_of_true rfl trivial
  | blockheapGc => exact iff_of_true rfl trivial

/-- A step keeps the accounts exactly if its two changes are the same. -/
theorem Session.Sound.accounts_iff (sound : s.Sound f) (accounts : s.Accounts) (step : SessionStep s event s') :
    s'.Accounts ↔ s.Keeps event := by
  have effect := sound.step step
  obtain ⟨f', sound'⟩ := effect.sound
  have before := accounts.handles
  have allocated := effect.allocated
  have handles := effect.handles
  rw [← Session.change_eq_iff sound.mounted.table]
  constructor
  · intro after
    have after := after.handles
    omega
  · intro same
    refine ⟨?_, sound'.inodes⟩
    omega

theorem Session.Initial.sound (initial : s.Initial) : ∃ f, s.Sound f ∧ s.Accounts := by
  obtain ⟨f, table⟩ := initial.table
  obtain ⟨inodeCount, inodeSensible, inodeCreated⟩ := initial.inodeHeap
  obtain ⟨handleCount, handleSensible, handleCreated⟩ := initial.handleHeap
  obtain ⟨inodes, -⟩ := inodeCreated.invariant inodeSensible
  obtain ⟨handles, -⟩ := handleCreated.invariant handleSensible
  have nothing := inodeCreated.allocated inodeSensible
  refine ⟨f, ⟨⟨table, inodes, handles⟩, nothing⟩, ?_, nothing⟩
  rw [handleCreated.allocated handleSensible, initial.handles]
  rfl

/-- No record is allocated between events. As long as files are opened that exist, with memory for their handles, and
none is released, the allocated handles are those of the open files. Any other open and every release breaks this. -/
theorem handle_accounts {s₀ : Session} (initial : s₀.Initial) :
    (∀ events s, Run SessionStep s₀ events s → s.state.inodeHeap.allocated = []) ∧
    ∀ events s, Run (fun s event s' => SessionStep s event s' ∧ s.Keeps event) s₀ events s →
      s.Accounts ∧ ∀ event s', SessionStep s event s' → (s'.Accounts ↔ s.Keeps event) := by
  obtain ⟨f₀, sound₀, accounts₀⟩ := initial.sound
  refine ⟨fun events s run => ?_, fun events s run => ?_⟩
  · obtain ⟨f, sound⟩ : ∃ f, s.Sound f := by
      apply run.invariant (I := fun s => ∃ f, s.Sound f) ⟨f₀, sound₀⟩
      rintro source event target ⟨f, sound⟩ step
      exact (sound.step step).sound
    exact sound.inodes
  · obtain ⟨⟨f, sound⟩, accounts⟩ : (∃ f, s.Sound f) ∧ s.Accounts := by
      refine run.invariant (I := fun s => (∃ f, s.Sound f) ∧ s.Accounts) ⟨⟨f₀, sound₀⟩, accounts₀⟩ ?_
      rintro source event target ⟨⟨f, sound⟩, accounts⟩ ⟨step, keeps⟩
      exact ⟨(sound.step step).sound, (sound.accounts_iff accounts step).mpr keeps⟩
    exact ⟨accounts, fun event s' step => sound.accounts_iff accounts step⟩

end Sessions

/-! ## A concrete session -/

/-- The database as it is set up, with the root directory as inode 1, and two elements per block. -/
def smallSession : Session where
  state :=
    { conn := { committed := write (fun _ => none) initialPackages initialFiles }
      inodeHeap := (emptyHeap sizeofInode 2).grown 4096
      handleHeap := (emptyHeap sizeofHandle 2).grown 65536 }

theorem smallSession_table : FilesTable smallSession.state.conn.view initialFiles where
  files := rfl
  columns := rfl
  keys row member := by
    rw [List.mem_singleton.mp member]
    exact ⟨1, by decide⟩
  distinct := List.nodup_singleton _

theorem smallSession_initial : smallSession.Initial := by
  exact ⟨⟨_, smallSession_table⟩, ⟨2, by decide, true, ⟨true, some 4096⟩, emptyHeap_lawful true (by decide), rfl⟩,
    ⟨2, by decide, true, ⟨true, some 65536⟩, emptyHeap_lawful true (by decide), rfl⟩, rfl⟩

/-- The query works, and no block is needed. -/
def smallFuseEnv : FuseEnv where
  inodeBlock _ := ⟨true, none⟩
  handleBlock := ⟨true, none⟩
  stack := {}

theorem smallFuseEnv_lawful (st : State) : smallFuseEnv.Lawful st :=
  ⟨by simp [BlockEnv.Lawful, smallFuseEnv], by simp [BlockEnv.Lawful, smallFuseEnv]⟩

theorem smallSession_sound : smallSession.Sound initialFiles ∧ smallSession.Accounts := by
  obtain ⟨f, sound, accounts⟩ := smallSession_initial.sound
  have files := sound.mounted.table.files
  rw [smallSession_table.files] at files
  cases files
  exact ⟨sound, accounts⟩

theorem lookup_root : (lookup smallFuseEnv initialFiles 1).isSome := by decide

/-- The root directory can be opened. -/
theorem fuse_replies_once_small : Answerable smallFuseEnv smallSession.state initialFiles (.open_ 1 ⟨0, none⟩) ∧
    ∃ replies st', vfsFuseOps smallFuseEnv (.open_ 1 ⟨0, none⟩) smallSession.state = some (replies, st') ∧
      Answered initialFiles (.open_ 1 ⟨0, none⟩) replies := by
  have answerable : Answerable smallFuseEnv smallSession.state initialFiles (.open_ 1 ⟨0, none⟩) :=
    ⟨lookup_root, by decide, .inl (by decide)⟩
  exact ⟨answerable, (fuse_replies_once smallSession_sound.1.mounted (smallFuseEnv_lawful _) _).mpr answerable⟩

/-- There is no inode 2, and no right answer to an open of it. -/
theorem absent_file_answered_twice : ¬∀ (env : FuseEnv) (st : State) (f : Table) (request : FuseRequest),
    Mounted st f → env.Lawful st → ∃ replies st', vfsFuseOps env request st = some (replies, st') ∧
      Answered f request replies := by
  intro always
  have answered := always _ _ _ (.open_ 2 ⟨0, none⟩) smallSession_sound.1.mounted (smallFuseEnv_lawful _)
  have found := ((open_answered_iff smallSession_sound.1.mounted (smallFuseEnv_lawful _) _ _).mp answered).1
  exact absurd found (by decide)

/-- The root directory is opened. -/
theorem smallSession_open : ∃ s, SessionStep smallSession (.request smallFuseEnv (.open_ 1 ⟨0, none⟩)) s ∧
    smallSession.Keeps (.request smallFuseEnv (.open_ 1 ⟨0, none⟩)) ∧ s.handles.length = 1 := by
  obtain ⟨replies, st, ran, -⟩ :=
    (open_answered_iff smallSession_sound.1.mounted (smallFuseEnv_lawful _) 1 ⟨0, none⟩).mpr
      ⟨lookup_root, by decide, .inl (by decide)⟩
  refine ⟨_, .request (smallFuseEnv_lawful _) (by simp) ran, ?_, ?_⟩
  · rw [Session.keeps_open_iff smallSession_table]
    exact iff_of_true lookup_root (.inl (by decide))
  · have opened := (smallSession_sound.1.open_ (smallFuseEnv_lawful _) ran).handles
    rw [Session.change, if_pos lookup_root] at opened
    exact Int.ofNat_inj.mp opened

/-- A request, or a collection. -/
def smallEvent (request : Option FuseRequest) : SessionEvent :=
  request.elim .blockheapGc (.request smallFuseEnv)

/-- What opening, asking for attributes or a collection leaves, if it keeps the accounts. -/
def Session.keep (s : Session) (request : Option FuseRequest) : Option Session :=
  match request with
  | some (.open_ ino fi) =>
    if ∀ f ∈ s.state.conn.view "files".toList,
        ((lookup smallFuseEnv f ino).isSome ↔ Provides smallFuseEnv.handleBlock s.state.handleHeap) then
      (vfsFuseOps smallFuseEnv (.open_ ino fi) s.state).map fun given => s.after given.2 (.open_ ino fi) given.1
    else none
  | some (.getattr ino fi) =>
    (vfsFuseOps smallFuseEnv (.getattr ino fi) s.state).map fun given => s.after given.2 (.getattr ino fi) given.1
  | none => some { s with state := { s.state with
      inodeHeap := blockheapGarbagecollect s.state.inodeHeap
      handleHeap := blockheapGarbagecollect s.state.handleHeap } }
  | _ => none

theorem Session.step_of_keep {s t : Session} {request : Option FuseRequest} (kept : s.keep request = some t) :
    SessionStep s (smallEvent request) t ∧ s.Keeps (smallEvent request) := by
  unfold Session.keep at kept
  split at kept
  · next ino fi =>
    split_ifs at kept with keeps
    obtain ⟨⟨replies, state⟩, ran, rfl⟩ := Option.map_eq_some_iff.mp kept
    exact ⟨.request (smallFuseEnv_lawful _) (by simp) ran, keeps⟩
  · obtain ⟨⟨replies, state⟩, ran, rfl⟩ := Option.map_eq_some_iff.mp kept
    exact ⟨.request (smallFuseEnv_lawful _) (by simp) ran, trivial⟩
  · obtain rfl := Option.some.inj kept
    exact ⟨.blockheapGc, trivial⟩
  · cases kept

theorem Session.run_of_keep {s t : Session} {requests : List (Option FuseRequest)}
    (kept : requests.foldlM Session.keep s = some t) :
    Run (fun s event s' => SessionStep s event s' ∧ s.Keeps event) s (requests.map smallEvent) t := by
  induction requests generalizing s with
  | nil =>
    obtain rfl := Option.some.inj kept
    exact .start
  | cons request requests rest =>
    obtain ⟨middle, first, later⟩ := Option.bind_eq_some_iff.mp kept
    exact .cons (Session.step_of_keep first) (rest later)

/-- The root directory is opened twice, and its attributes are asked for, between collections. -/
def smallRequests : List (Option FuseRequest) :=
  [some (.open_ 1 ⟨0, none⟩), none, some (.getattr 1 none), some (.open_ 1 ⟨0, none⟩), none]

theorem smallRequests_run : ∃ s, s.handles.length = 2 ∧
    Run (fun s event s' => SessionStep s event s' ∧ s.Keeps event) smallSession (smallRequests.map smallEvent) s := by
  have ran : (smallRequests.foldlM Session.keep smallSession).map (fun s => s.handles.length) = some 2 := by
    decide +kernel
  obtain ⟨s, ran, opened⟩ := Option.map_eq_some_iff.mp ran
  exact ⟨s, opened, Session.run_of_keep ran⟩

/-- A release afterwards leaves more handles than files. -/
theorem handle_accounts_small : ∃ s fh s',
    Run (fun s event s' => SessionStep s event s' ∧ s.Keeps event) smallSession (smallRequests.map smallEvent) s ∧
    s.state.handleHeap.allocated.length = 2 ∧ s.state.inodeHeap.allocated = [] ∧
    SessionStep s (.request smallFuseEnv (.release 1 ⟨0, fh⟩)) s' ∧ ¬s'.Accounts := by
  obtain ⟨s, opened, run⟩ := smallRequests_run
  obtain ⟨accounts, next⟩ := (handle_accounts smallSession_initial).2 _ _ run
  obtain ⟨fh, held⟩ : ∃ fh, fh ∈ s.handles := List.exists_mem_of_length_pos (by omega)
  have release : SessionStep s (.request smallFuseEnv (.release 1 ⟨0, fh⟩))
      { s with handles := s.handles.erase fh } := by
    refine .request (smallFuseEnv_lawful _) ?_ rfl
    rintro _ _ same
    cases same
    exact held
  exact ⟨s, fh, _, run, accounts.handles.trans opened, accounts.inodes, release, (next _ _ release).mp⟩

/-- The root directory is opened and released, and its handle stays allocated. -/
theorem released_handle_stays_allocated : ¬∀ (s₀ s : Session) (events : List SessionEvent), s₀.Initial →
    Run SessionStep s₀ events s → s.Accounts := by
  intro always
  obtain ⟨s, step, keeps, opened⟩ := smallSession_open
  obtain ⟨fh, held⟩ : ∃ fh, fh ∈ s.handles := List.exists_mem_of_length_pos (by omega)
  obtain ⟨f, sound⟩ := (smallSession_sound.1.step step).sound
  have accounts := (smallSession_sound.1.accounts_iff smallSession_sound.2 step).mpr keeps
  have release : SessionStep s (.request smallFuseEnv (.release 1 ⟨0, fh⟩))
      { s with handles := s.handles.erase fh } := by
    refine .request (smallFuseEnv_lawful _) ?_ rfl
    rintro _ _ same
    cases same
    exact held
  have after := always _ _ _ smallSession_initial ((Run.single step).snoc release)
  exact (sound.accounts_iff accounts release).mp after

end FsPkg.Vfs
