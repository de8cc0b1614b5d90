import FsPkg.Proofs.FuseRuns
import FsPkg.Proofs.VfsFuseRuns

/-! # Requests and the handlers of the file system

The record of a request is gone with the first reply, unless an INTERRUPT holds it. A handler that replies twice touches
it after that, as `vfs_fuse_open` does for a file that is not there.
-/

namespace FsPkg.Fuse

open Machine

variable {pending waiting own held : List ReqPtr} {received : List FuseIn} {req : ReqPtr} {in_ : FuseIn}
  {s : Session} {fuel : ℕ}

/-- A record that nobody has is not there. -/
theorem Records.eq_none {mem : Mem} (records : Records mem pending waiting own held) {address : ℕ}
    (nobody : ReqPtr.req address ∉ pending ++ (waiting ++ own) ++ held) : mem (.req address) = none := by
  have uncounted := records.counted.eq_none_iff.mpr nobody
  exact Option.map_eq_none_iff.mp (Option.map_eq_none_iff.mp uncounted)

namespace Session.Sound

/-- The record of a request is gone with its reply, if no INTERRUPT holds it. -/
theorem sendReply_spec (sound : s.Sound pending waiting received) (member : (req, in_) ∈ s.inFlight)
    (unheld : req ∉ s.held) (error : Int32) (payload : Payload) :
    ∃ f, sendReply req error payload s.ll = some f ∧ f.mem req = none := by
  have listed : req ∈ pending := sound.inFlight_mem member
  have alive := sound.records.isSome_data (List.mem_append_left _ listed)
  obtain ⟨left, right, rfl⟩ := List.append_of_mem listed
  obtain ⟨mem', set, records, -⟩ := sound.records.freePending
  have wrote := writeReply_spec alive error payload
  have sent : sendReply req error payload s.ll = some
      { s.ll with mem := mem', sent := s.ll.sent ++ [⟨s.ll.mem.uniqueOf req, outError error, payload⟩] } := by
    simp only [sendReply, wrote, Ll.free, set, bind, Option.bind_some]
  refine ⟨_, sent, ?_⟩
  obtain ⟨address, rfl⟩ := sound.records.address_of_mem (List.mem_append_left _ (List.mem_append_left _ listed))
  apply records.eq_none
  rw [List.mem_append, not_or]
  exact ⟨sound.records.pending_notMem, unheld⟩

/-- A handler may reply once. -/
theorem replies_iff (sound : s.Sound pending waiting received) (member : (req, in_) ∈ s.inFlight)
    (unheld : req ∉ s.held) (replies : List Vfs.Reply) :
    (replies.foldlM (fun f reply => sendReply req (fuseReply f.toLlInfo reply).1 (fuseReply f.toLlInfo reply).2 f) s.ll).isSome ↔
      replies.length ≤ 1 := by
  cases replies with
  | nil => simp
  | cons first rest =>
    obtain ⟨f, sent, gone⟩ := sound.sendReply_spec member unheld (fuseReply s.ll.toLlInfo first).1 (fuseReply s.ll.toLlInfo first).2
    cases rest with
    | nil => simp [sent]
    | cons second rest =>
      have fault : sendReply req (fuseReply f.toLlInfo second).1 (fuseReply f.toLlInfo second).2 f = none := by
        simp only [sendReply, writeReply, gone, bind, Option.bind_none]
      simp [sent, fault]

end Session.Sound

/-- The file is there for `vfs_fuse_open`, and a record can be had for a row that is found. -/
def Servable (env : Vfs.FuseEnv) (st : Vfs.State) (f : Sql.Table) : Vfs.FuseRequest → Prop
  | .open_ ino _ => (Vfs.lookup env f ino).isSome ∧ Vfs.Provides (env.inodeBlock 0) st.inodeHeap
  | .getattr ino _ => (Vfs.lookup env f ino).isSome → Vfs.Provides (env.inodeBlock 0) st.inodeHeap
  | _ => True

/-- A request that is in flight and that no INTERRUPT holds is served without a fault exactly if it is not an open of a
file that is not there, and the memory for its row can be had. -/
theorem fuse_serve_run {s₀ : Session} (fresh : s₀.Fresh) {actions : List Action}
    (run : Run (Session.Step fuel) s₀ actions s) (enough : actions.length < fuel) (member : (req, in_) ∈ s.inFlight)
    (unheld : req ∉ s.held) {env : Vfs.FuseEnv} {st : Vfs.State} {f : Sql.Table} (mounted : Vfs.Mounted st f)
    (lawful : env.Lawful st) (request : Vfs.FuseRequest) :
    (serve env request req st s.ll).isSome ↔ Servable env st f request := by
  obtain ⟨pending, waiting, sound⟩ := fresh.sound_of_run run enough.le
  have once := sound.replies_iff member unheld
  have served {replies : List Vfs.Reply} {st' : Vfs.State} (ran : Vfs.vfsFuseOps env request st = some (replies, st')) :
      (serve env request req st s.ll).isSome ↔ replies.length ≤ 1 := by
    rw [← once replies, serve, ran]
    simp only [bind, Option.bind_some]
    generalize replies.foldlM (fun f reply => sendReply req (fuseReply f.toLlInfo reply).1 (fuseReply f.toLlInfo reply).2 f) s.ll = sent
    cases sent <;> exact Iff.rfl
  have faults (ran : Vfs.vfsFuseOps env request st = none) : (serve env request req st s.ll).isSome = false := by
    rw [serve, ran]
    rfl
  cases request with
  | open_ ino fi =>
    obtain ⟨fh, handles, -, ⟨missing, ran⟩ | ⟨row, -, refused, ran⟩ | ⟨row, heap, found, provides, ran, -⟩⟩ :=
      Vfs.vfsFuseOpen_spec mounted lawful ino fi
    · rw [served ran]
      exact iff_of_false (by simp) fun servable => absurd servable.1 (by simp [missing])
    · rw [faults ran]
      exact iff_of_false Bool.false_ne_true fun servable => refused servable.2
    · rw [served ran]
      exact iff_of_true (Nat.le_refl 1) ⟨by rw [found]; rfl, provides⟩
  | getattr ino fi =>
    obtain ⟨missing, ran⟩ | ⟨row, found, refused, ran⟩ | ⟨row, heap, -, provides, ran, -⟩ :=
      Vfs.vfsFuseGetattr_spec mounted lawful ino fi
    · rw [served ran]
      exact iff_of_true (Nat.le_refl 1) fun found => absurd found (by simp [missing])
    · rw [faults ran]
      exact iff_of_false Bool.false_ne_true fun servable => refused (servable (by rw [found]; rfl))
    · rw [served ran]
      exact iff_of_true (Nat.le_refl 1) fun _ => provides
  | _ =>
    rw [served rfl]
    exact iff_of_true (Nat.le_refl 1) trivial

/-- The root directory is opened; an open of inode 2, which is not there, faults. -/
theorem fuse_serve_run_opening :
    ((serve Vfs.smallFuseEnv (.open_ 1 ⟨0, none⟩) (.req 1) Vfs.smallSession.state (openingSession 4).ll).isSome ↔
        Servable Vfs.smallFuseEnv Vfs.smallSession.state Db.initialFiles (.open_ 1 ⟨0, none⟩)) ∧
      Servable Vfs.smallFuseEnv Vfs.smallSession.state Db.initialFiles (.open_ 1 ⟨0, none⟩) ∧
      ¬Servable Vfs.smallFuseEnv Vfs.smallSession.state Db.initialFiles (.open_ 2 ⟨0, none⟩) := by
  refine ⟨?_, ⟨Vfs.lookup_root, .inl (by decide)⟩, fun servable => absurd servable.1 (by decide)⟩
  exact fuse_serve_run newSession_fresh openingSession_run (by decide) (List.mem_singleton_self (ReqPtr.req 1, openMessage))
    List.not_mem_nil Vfs.smallSession_sound.1.mounted (Vfs.smallFuseEnv_lawful _) (.open_ 1 ⟨0, none⟩)

end FsPkg.Fuse
