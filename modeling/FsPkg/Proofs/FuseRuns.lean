import FsPkg.Model.FuseSession
import FsPkg.Proofs.FuseInterrupts

/-! # Runs of a session

Whatever the order in which threads take their steps, no step touches a record that was freed, and a record is there as
long as somebody has it. Every message is answered at most once, and a request that is to be answered waits until it is.
-/

namespace FsPkg.Fuse

open Machine

/-- The message that a record is of. -/
def Mem.uniqueOf (mem : Mem) (req : ReqPtr) : UInt64 := ((mem.data req).map Data.unique).getD 0

/-- Whether a message is to be answered. -/
def FuseIn.wantsAnswer (in_ : FuseIn) : Bool :=
  match in_.body with
  | .interrupt _ | .forget _ => false
  | _ => true

/-- The message that comes with an action, if there is memory for its record. -/
def Action.received : Action → List FuseIn
  | .receive (some _) in_ => [in_]
  | _ => []

namespace Session

/-- The INTERRUPT messages that threads have. -/
def alone (s : Session) : List ReqPtr := s.bouncing ++ (s.marking ++ s.releasing).map Prod.fst

/-- The requests that INTERRUPT messages are about. -/
def held (s : Session) : List ReqPtr := (s.marking ++ s.releasing).map Prod.snd

/-- The records of messages that may still be answered. -/
def owed (s : Session) (waiting : List ReqPtr) : List ReqPtr := s.inFlight.map Prod.fst ++ (waiting ++ s.alone)

/-- The records of a session with these rings, after it has received these messages. -/
structure Sound (s : Session) (pending waiting : List ReqPtr) (received : List FuseIn) : Prop where
  records : Records s.ll.mem pending waiting s.alone s.held
  order : pending.Perm (s.inFlight.map Prod.fst ++ s.answered)
  few : pending.length ≤ received.length ∧ waiting.length ≤ received.length
  messages : ∀ p ∈ s.inFlight, s.ll.mem.uniqueOf p.1 = p.2.unique
  once : ∀ u, (s.ll.sent.map Out.unique).count u + ((s.owed waiting).map s.ll.mem.uniqueOf).count u ≤
    (received.map FuseIn.unique).count u
  kept : ∀ u, ((received.filter FuseIn.wantsAnswer).map FuseIn.unique).count u ≤
    (s.ll.sent.map Out.unique).count u +
      ((s.inFlight.filter fun p => p.2.wantsAnswer).map fun p => p.2.unique).count u

end Session

variable {mem mem' : Mem} {pending waiting own held : List ReqPtr} {received : List FuseIn} {req intr curr : ReqPtr}
  {in_ : FuseIn} {s s' : Session} {fuel address : ℕ}

/-! ## Records and their messages -/

theorem Mem.uniqueOf_eq {d : Data} (found : mem.data req = some d) : mem.uniqueOf req = d.unique := by
  rw [Mem.uniqueOf, found]
  rfl

theorem Mem.Keeps.uniqueOf (keeps : mem.Keeps mem') (alive : (mem'.data req).isSome) :
    mem'.uniqueOf req = mem.uniqueOf req := by
  obtain ⟨d', found'⟩ := Option.isSome_iff_exists.mp alive
  obtain ⟨d, found, same⟩ := keeps req d' found'
  rw [Mem.uniqueOf_eq found', Mem.uniqueOf_eq found, same]

theorem Records.isSome_data (records : Records mem pending waiting own held)
    (member : req ∈ pending ++ (waiting ++ own)) : (mem.data req).isSome := by
  obtain ⟨d, found, -⟩ := records.data_of_mem (List.mem_append_left held member)
  rw [found]
  rfl

theorem Records.map_uniqueOf (records : Records mem' pending waiting own held) (keeps : mem.Keeps mem')
    {reqs : List ReqPtr} (among : ∀ k ∈ reqs, k ∈ pending ++ (waiting ++ own)) :
    reqs.map mem'.uniqueOf = reqs.map mem.uniqueOf :=
  List.map_congr_left fun k member => keeps.uniqueOf (records.isSome_data (among k member))

/-- `send_reply_iov` up to `writev`, for a record that is there. -/
theorem writeReply_spec {f : Ll} (alive : (f.mem.data req).isSome) (error : Int32) (payload : Payload) :
    writeReply req error payload f =
      some { f with sent := f.sent ++ [⟨f.mem.uniqueOf req, outError error, payload⟩] } := by
  obtain ⟨d, found⟩ := Option.isSome_iff_exists.mp alive
  obtain ⟨r, there, same, -⟩ := Mem.of_data found
  rw [Mem.uniqueOf_eq found, ← same]
  simp only [writeReply, there, bind, Option.bind_some]

namespace Session.Sound

theorem inFlight_mem (sound : s.Sound pending waiting received) {p : ReqPtr × FuseIn} (member : p ∈ s.inFlight) :
    p.1 ∈ pending :=
  sound.order.mem_iff.mpr (List.mem_append_left _ (List.mem_map_of_mem member))

theorem owed_mem (sound : s.Sound pending waiting received) :
    ∀ k ∈ s.owed waiting, k ∈ pending ++ (waiting ++ s.alone) := by
  intro k member
  rcases List.mem_append.mp member with inFlight | other
  · obtain ⟨p, among, rfl⟩ := List.mem_map.mp inFlight
    exact List.mem_append_left _ (sound.inFlight_mem among)
  · exact List.mem_append_right _ other

/-! ## Answers -/

/-- An answer was written, or a FORGET was taken note of. -/
theorem wrote (sound : s.Sound pending waiting received) (member : (req, in_) ∈ s.inFlight) {ll : Ll}
    (same : ll.mem = s.ll.mem) {outs : List Out} (sent : ll.sent = s.ll.sent ++ outs)
    (each : outs.map Out.unique = [in_.unique] ∨ outs = [] ∧ in_.wantsAnswer = false) :
    (s.wrote req in_ ll).Sound pending waiting received := by
  have erased := List.perm_cons_erase member
  have inFlight : (s.inFlight.map Prod.fst).Perm (req :: (s.inFlight.erase (req, in_)).map Prod.fst) :=
    erased.map Prod.fst
  have unique : s.ll.mem.uniqueOf req = in_.unique := sound.messages _ member
  refine ⟨?_, ?_, sound.few, ?_, ?_, ?_⟩
  · rw [Session.wrote, same]
    exact sound.records
  · apply sound.order.trans
    apply (inFlight.append_right s.answered).trans
    apply List.perm_middle.symm.trans
    exact List.Perm.append_left _ (List.perm_append_singleton req s.answered).symm
  · intro p among
    rw [Session.wrote, same]
    exact sound.messages p (List.mem_of_mem_erase among)
  · intro u
    have before := sound.once u
    have owes : (s.owed waiting).Perm (req :: (s.wrote req in_ ll).owed waiting) := inFlight.append_right _
    rw [(owes.map s.ll.mem.uniqueOf).count_eq, List.map_cons, List.count_cons, unique] at before
    change (ll.sent.map Out.unique).count u + (((s.wrote req in_ ll).owed waiting).map ll.mem.uniqueOf).count u ≤ _
    rw [same, sent, List.map_append, List.count_append]
    rcases each with wrote | ⟨rfl, -⟩
    · rw [wrote, List.count_singleton]
      omega
    · simp only [List.map_nil, List.count_nil]
      omega
  · intro u
    have before := sound.kept u
    have waits := (erased.filter fun p => p.2.wantsAnswer).map fun p => p.2.unique
    have first : ((req, in_) :: s.inFlight.erase (req, in_)).filter (fun p => p.2.wantsAnswer) =
        if in_.wantsAnswer then (req, in_) :: (s.inFlight.erase (req, in_)).filter fun p => p.2.wantsAnswer
        else (s.inFlight.erase (req, in_)).filter fun p => p.2.wantsAnswer := List.filter_cons
    rw [waits.count_eq, first] at before
    change _ ≤ (ll.sent.map Out.unique).count u +
      (((s.inFlight.erase (req, in_)).filter fun p => p.2.wantsAnswer).map fun p => p.2.unique).count u
    rw [sent, List.map_append, List.count_append]
    rcases each with wrote | ⟨rfl, forgets⟩
    · rw [wrote, List.count_singleton]
      split_ifs at before
      · rw [List.map_cons, List.count_cons] at before
        dsimp only at before
        omega
      · omega
    · rw [forgets, if_neg Bool.false_ne_true] at before
      simp only [List.map_nil, List.count_nil]
      omega

/-- The file system answers a request. -/
theorem reply (sound : s.Sound pending waiting received) (member : (req, in_) ∈ s.inFlight) (error : Int32)
    (payload : Payload) {f : Ll} (same : f.mem = s.ll.mem) (sent : f.sent = s.ll.sent) :
    ∃ ll, writeReply req error payload f = some ll ∧ (s.wrote req in_ ll).Sound pending waiting received := by
  have alive : (f.mem.data req).isSome := by
    rw [same]
    exact sound.records.isSome_data (List.mem_append_left _ (sound.inFlight_mem member))
  refine ⟨_, writeReply_spec alive error payload, sound.wrote member same (by rw [sent]) (.inl ?_)⟩
  rw [same, sound.messages _ member]
  rfl

theorem doInit_eq (req : ReqPtr) (arg : InitIn) (f : Ll) : ∃ error payload f', f'.mem = f.mem ∧ f'.sent = f.sent ∧
    doInit req arg f = writeReply req error payload f' := by
  unfold doInit
  split_ifs
  all_goals
    refine ⟨_, _, _, ?_, ?_, rfl⟩
    · rfl
    · rfl

/-- A message is answered by its function in `fuse_ll_ops`. -/
theorem answerOwn (sound : s.Sound pending waiting received) (member : (req, in_) ∈ s.inFlight) :
    ∃ s', s.own req in_ = some s' ∧ s'.Sound pending waiting received := by
  unfold Session.own
  split
  · next arg _ =>
    obtain ⟨error, payload, f', mem, sent, same⟩ := doInit_eq req arg s.ll
    obtain ⟨ll, wrote, sound'⟩ := sound.reply member error payload mem sent
    exact ⟨_, by rw [same, wrote]; rfl, sound'⟩
  · obtain ⟨ll, wrote, sound'⟩ := sound.reply (f := { s.ll with gotDestroy := true }) member 0 .empty rfl rfl
    exact ⟨_, by rw [doDestroy, wrote]; rfl, sound'⟩
  · next nlookup forget =>
    refine ⟨_, rfl, sound.wrote member rfl (List.append_nil _).symm (.inr ⟨rfl, ?_⟩)⟩
    rw [FuseIn.wantsAnswer, forget]
  · obtain ⟨ll, wrote, sound'⟩ := sound.reply (f := s.ll) member (-Vfs.enosys) .empty rfl rfl
    exact ⟨_, by rw [wrote]; rfl, sound'⟩

/-! ## Records that are given back -/

/-- The session with another memory, where records that it had are gone. -/
theorem shrink (sound : s.Sound pending waiting received) (s' : Session) (outs : List Out) (gone : List ReqPtr)
    {pending' : List ReqPtr}
    (records : Records s'.ll.mem pending' waiting s'.alone s'.held) (keeps : s.ll.mem.Keeps s'.ll.mem)
    (inFlight : s'.inFlight = s.inFlight) (order : pending'.Perm (s'.inFlight.map Prod.fst ++ s'.answered))
    (few : pending'.length ≤ pending.length) (sent : s'.ll.sent = s.ll.sent ++ outs)
    (alone : s.alone.Perm (gone ++ s'.alone))
    (each : outs.map Out.unique = [] ∨ outs.map Out.unique = gone.map s.ll.mem.uniqueOf) :
    s'.Sound pending' waiting received := by
  have among : ∀ k ∈ s'.owed waiting, k ∈ pending' ++ (waiting ++ s'.alone) := by
    intro k member
    rcases List.mem_append.mp member with flies | other
    · exact List.mem_append_left _ (order.mem_iff.mpr (List.mem_append_left _ flies))
    · exact List.mem_append_right _ other
  have same := records.map_uniqueOf keeps among
  refine ⟨records, order, ⟨few.trans sound.few.1, sound.few.2⟩, ?_, ?_, ?_⟩
  · intro p member
    have there : p.1 ∈ pending' := order.mem_iff.mpr (List.mem_append_left _ (List.mem_map_of_mem member))
    rw [keeps.uniqueOf (records.isSome_data (List.mem_append_left _ there))]
    exact sound.messages p (inFlight ▸ member)
  · intro u
    have before := sound.once u
    have owes : (s.owed waiting).Perm (gone ++ s'.owed waiting) := by
      rw [Session.owed, Session.owed, inFlight]
      apply ((alone.append_left waiting).append_left _).trans
      rw [List.perm_iff_count]
      intro k
      simp only [List.count_append]
      omega
    rw [(owes.map s.ll.mem.uniqueOf).count_eq, List.map_append, List.count_append] at before
    rw [same, sent, List.map_append, List.count_append]
    rcases each with none | all
    · rw [none, List.count_nil]
      omega
    · rw [all]
      omega
  · intro u
    rw [inFlight, sent, List.map_append, List.count_append]
    have before := sound.kept u
    omega

theorem free (sound : s.Sound pending waiting received) (member : req ∈ s.answered) (fuel : ℕ) :
    ∃ s' pending', s.step fuel (.free req) = some s' ∧ s'.Sound pending' waiting received := by
  have listed : req ∈ pending := sound.order.mem_iff.mpr (List.mem_append_right _ member)
  obtain ⟨left, right, rfl⟩ := List.append_of_mem listed
  obtain ⟨mem', set, records, keeps⟩ := sound.records.freePending
  have answered := List.perm_cons_erase member
  have order : (left ++ right).Perm (s.inFlight.map Prod.fst ++ s.answered.erase req) := by
    apply List.Perm.cons_inv (a := req)
    apply List.perm_middle.symm.trans
    apply sound.order.trans
    exact (answered.append_left _).trans List.perm_middle
  let s' : Session := { s with ll := { s.ll with mem := mem' }, answered := s.answered.erase req }
  have fewer : (left ++ right).length ≤ (left ++ req :: right).length := by simp
  refine ⟨s', left ++ right, ?_, sound.shrink s' [] [] records keeps rfl order fewer (List.append_nil _).symm
    (List.Perm.refl _) (.inl rfl)⟩
  simp only [Session.step, Ll.free, set, bind, Option.bind_some, s']

theorem bounce (sound : s.Sound pending waiting received) (member : intr ∈ s.bouncing) (fuel : ℕ) :
    ∃ s', s.step fuel (.bounce intr) = some s' ∧ s'.Sound pending waiting received := by
  have alone : s.alone.Perm (intr :: (s.bouncing.erase intr ++ (s.marking ++ s.releasing).map Prod.fst)) :=
    (List.perm_cons_erase member).append_right _
  have records := sound.records.perm alone (List.Perm.refl _)
  obtain ⟨mem', set, records', keeps⟩ := records.freeOwn
  have wrote := writeReply_spec (f := s.ll) (records.isSome_data (List.mem_append_right _ (List.mem_append_right _
    List.mem_cons_self))) (-eagain) .empty
  let out : Out := ⟨s.ll.mem.uniqueOf intr, outError (-eagain), .empty⟩
  let s' : Session :=
    { s with ll := { s.ll with mem := mem', sent := s.ll.sent ++ [out] }, bouncing := s.bouncing.erase intr }
  refine ⟨s', ?_, sound.shrink s' [out] [intr] records' keeps rfl sound.order (Nat.le_refl _) rfl alone (.inr rfl)⟩
  simp only [Session.step, fuseReplyErr, sendReply, wrote, Ll.free, set, bind, Option.bind_some, s', out]

theorem mark (sound : s.Sound pending waiting received) (member : (intr, curr) ∈ s.marking) (fuel : ℕ) :
    ∃ s', s.step fuel (.mark intr curr) = some s' ∧ s'.Sound pending waiting received := by
  have marked : (s.marking ++ s.releasing).Perm (s.marking.erase (intr, curr) ++ (s.releasing ++ [(intr, curr)])) := by
    apply ((List.perm_cons_erase member).append_right s.releasing).trans
    apply List.perm_middle.symm.trans
    exact List.Perm.append_left _ (List.perm_append_singleton _ _).symm
  have among : curr ∈ pending ++ (waiting ++ s.alone) ++ s.held :=
    List.mem_append_right _ (List.mem_map.mpr ⟨(intr, curr), List.mem_append_left _ member, rfl⟩)
  obtain ⟨mem', set, records, keeps⟩ := sound.records.change among (fun r => { r with interrupted := true })
    (fun d => { d with interrupted := true }) (fun _ => rfl) (fun _ => rfl) (fun _ => rfl) (fun _ => rfl) fun _ => rfl
  have alone := (marked.map Prod.fst).append_left s.bouncing
  let s' : Session :=
    { s with
      ll := { s.ll with mem := mem' }
      marking := s.marking.erase (intr, curr)
      releasing := s.releasing ++ [(intr, curr)] }
  refine ⟨s', ?_, sound.shrink s' [] [] (records.perm alone (marked.map Prod.snd)) keeps rfl sound.order
    (Nat.le_refl _) (List.append_nil _).symm alone (.inl rfl)⟩
  simp only [Session.step, markInterrupted, set, bind, Option.bind_some, s']

theorem release (sound : s.Sound pending waiting received) (member : (intr, curr) ∈ s.releasing) (fuel : ℕ) :
    ∃ s', s.step fuel (.release intr curr) = some s' ∧ s'.Sound pending waiting received := by
  have released : (s.marking ++ s.releasing).Perm
      ((intr, curr) :: (s.marking ++ s.releasing.erase (intr, curr))) :=
    ((List.perm_cons_erase member).append_left s.marking).trans List.perm_middle
  have alone : s.alone.Perm
      (intr :: (s.bouncing ++ (s.marking ++ s.releasing.erase (intr, curr)).map Prod.fst)) :=
    ((released.map Prod.fst).append_left s.bouncing).trans List.perm_middle
  obtain ⟨mem₁, set₁, records₁, keeps₁⟩ := (sound.records.perm alone (released.map Prod.snd)).unhold
  obtain ⟨mem₂, set₂, records₂, keeps₂⟩ := records₁.destroy
  let s' : Session :=
    { s with ll := { s.ll with mem := mem₂ }, releasing := s.releasing.erase (intr, curr) }
  refine ⟨s', ?_, sound.shrink s' [] [intr] records₂ (keeps₁.trans keeps₂) rfl sound.order (Nat.le_refl _)
    (List.append_nil _).symm alone (.inl rfl)⟩
  simp only [Session.step, releaseInterrupted, set₁, set₂, bind, Option.bind_some, s']

/-! ## Messages that come in -/

theorem count_map_le {reqs reqs' : List ReqPtr} (fewer : reqs'.Subperm reqs) (f : ReqPtr → UInt64) (u : UInt64) :
    (reqs'.map f).count u ≤ (reqs.map f).count u := by
  obtain ⟨among, same, sublist⟩ := fewer
  rw [← (same.map f).count_eq]
  exact (sublist.map f).count_le u

/-- The session with the record of a message that came in, which was answered at once, or is to be answered, or is an
INTERRUPT; `mem` is the memory with the record when it was new. -/
theorem grow (sound : s.Sound pending waiting received) (s' : Session) (outs : List Out) (more : List (ReqPtr × FuseIn))
    {pending' waiting' : List ReqPtr} (records : Records s'.ll.mem pending' waiting' s'.alone s'.held)
    (before : ∀ k ∈ s.owed waiting, mem.uniqueOf k = s.ll.mem.uniqueOf k) (unique : mem.uniqueOf req = in_.unique)
    (keeps : mem.Keeps s'.ll.mem) (inFlight : s'.inFlight = s.inFlight ++ more)
    (order : pending'.Perm (s'.inFlight.map Prod.fst ++ s'.answered))
    (few : pending'.length ≤ pending.length + 1 ∧ waiting'.length ≤ waiting.length + 1)
    (sent : s'.ll.sent = s.ll.sent ++ outs)
    (fate : more = [] ∧ outs.map Out.unique = [in_.unique] ∧ (s'.owed waiting').Subperm (s.owed waiting) ∨
      (more = [(req, in_)] ∨ more = [] ∧ in_.wantsAnswer = false) ∧ outs = [] ∧
        (s'.owed waiting').Subperm (req :: s.owed waiting)) :
    s'.Sound pending' waiting' (received ++ [in_]) := by
  have listed : ∀ k ∈ s'.inFlight.map Prod.fst, k ∈ pending' := fun k member =>
    order.mem_iff.mpr (List.mem_append_left _ member)
  have among : ∀ k ∈ s'.owed waiting', k ∈ pending' ++ (waiting' ++ s'.alone) := by
    intro k member
    rcases List.mem_append.mp member with flies | other
    · exact List.mem_append_left _ (listed k flies)
    · exact List.mem_append_right _ other
  have same := records.map_uniqueOf keeps among
  have old : (s.owed waiting).map mem.uniqueOf = (s.owed waiting).map s.ll.mem.uniqueOf :=
    List.map_congr_left before
  refine ⟨records, order, ?_, ?_, ?_, ?_⟩
  · have bounds := sound.few
    rw [List.length_append, List.length_singleton]
    omega
  · intro p member
    rw [keeps.uniqueOf (records.isSome_data (List.mem_append_left _ (listed _ (List.mem_map_of_mem member))))]
    rw [inFlight] at member
    rcases List.mem_append.mp member with early | late
    · rw [before _ (List.mem_append_left _ (List.mem_map_of_mem early))]
      exact sound.messages p early
    · rcases fate with ⟨rfl, -⟩ | ⟨rfl | ⟨rfl, -⟩, -⟩
      · cases late
      · obtain rfl := List.mem_singleton.mp late
        exact unique
      · cases late
  · intro u
    have enough := sound.once u
    rw [← old] at enough
    rw [same, sent]
    simp only [List.map_append, List.count_append, List.map_cons, List.map_nil]
    rcases fate with ⟨-, wrote, fewer⟩ | ⟨-, rfl, fewer⟩
    · have less := count_map_le fewer mem.uniqueOf u
      rw [wrote]
      omega
    · have less := count_map_le fewer mem.uniqueOf u
      rw [List.map_cons, List.count_cons, unique] at less
      rw [List.map_nil, List.count_nil, List.count_singleton]
      omega
  · intro u
    have waits := sound.kept u
    rw [inFlight, sent, List.filter_append, List.filter_append]
    simp only [List.map_append, List.count_append]
    have last : [in_].filter FuseIn.wantsAnswer = if in_.wantsAnswer then [in_] else [] := List.filter_cons
    rw [last]
    rcases fate with ⟨rfl, wrote, -⟩ | ⟨rfl | ⟨rfl, not⟩, rfl, -⟩
    · rw [wrote]
      split_ifs
      · simp only [List.map_cons, List.map_nil, List.filter_nil]
        omega
      · simp only [List.map_nil, List.count_nil, List.filter_nil]
        omega
    · have first : [(req, in_)].filter (fun p => p.2.wantsAnswer) = if in_.wantsAnswer then [(req, in_)] else [] :=
        List.filter_cons
      rw [first]
      split_ifs
      · simp only [List.map_cons, List.map_nil, List.count_nil]
        omega
      · simp only [List.map_nil, List.count_nil]
        omega
    · rw [not, if_neg Bool.false_ne_true]
      simp only [List.map_nil, List.count_nil, List.filter_nil]
      omega

theorem receive (sound : s.Sound pending waiting received) (fresh : s.ll.mem (.req address) = none)
    (enough : received.length < fuel) (in_ : FuseIn) :
    ∃ s' pending' waiting', s.step fuel (.receive (some address) in_) = some s' ∧
      s'.Sound pending' waiting' (received ++ [in_]) := by
  have records : Records (newReq address in_ s.ll).mem pending waiting (.req address :: s.alone) s.held :=
    sound.records.new fresh in_.unique
  have data : (newReq address in_ s.ll).mem.data =
      Function.update s.ll.mem.data (.req address) (some ⟨in_.unique, 1, false, 0⟩) := Mem.data_update _
  have unique : (newReq address in_ s.ll).mem.uniqueOf (.req address) = in_.unique := by
    rw [Mem.uniqueOf, data, Function.update_self]
    rfl
  have before : ∀ k ∈ s.owed waiting, (newReq address in_ s.ll).mem.uniqueOf k = s.ll.mem.uniqueOf k := by
    intro k member
    have alive := sound.records.isSome_data (sound.owed_mem k member)
    have other : k ≠ .req address := by
      rintro rfl
      rw [Mem.data, fresh] at alive
      cases alive
    rw [Mem.uniqueOf, data, Function.update_of_ne other, Mem.uniqueOf]
  have few := Nat.lt_of_le_of_lt sound.few.1 enough
  have few' := Nat.lt_of_le_of_lt sound.few.2 enough
  simp only [Session.step, Session.receive, Session.process]
  split
  · next err _ =>
    have alive := records.isSome_data (List.mem_append_right _ (List.mem_append_right _ List.mem_cons_self))
    have wrote := writeReply_spec alive (-err) .empty
    obtain ⟨mem', set, records', keeps⟩ := records.freeOwn
    let out : Out := ⟨(newReq address in_ s.ll).mem.uniqueOf (.req address), outError (-err), .empty⟩
    let s' : Session :=
      { s with ll := { newReq address in_ s.ll with mem := mem', sent := s.ll.sent ++ [out] } }
    refine ⟨s', pending, waiting, ?_, sound.grow s' [out] [] records' before unique keeps (List.append_nil _).symm
      sound.order ⟨Nat.le_succ _, Nat.le_succ _⟩ rfl (.inl ⟨rfl, ?_, List.Subperm.refl _⟩)⟩
    · simp only [fuseReplyErr, sendReply, wrote, Ll.free, set, bind, Option.bind_some]
      rfl
    · exact congrArg (fun u => [u]) unique
  · split
    · next target body =>
      obtain ⟨mem', curr, waiting', done, records', keeps, fewer⟩ := records.doInterrupt_spec few few' target
      let s' : Session :=
        { s with
          ll := { newReq address in_ s.ll with mem := mem' }
          marking := s.marking ++ curr.toList.map fun curr => (.req address, curr) }
      have alone : ((curr.map fun _ => ReqPtr.req address).toList ++ s.alone).Perm s'.alone := by
        cases curr with
        | none => simp [Session.alone, s']
        | some curr =>
          simp only [Session.alone, s', Option.map_some, Option.toList_some, List.map_append, List.map_cons,
            List.map_nil, List.append_assoc, List.cons_append, List.nil_append]
          exact ((List.perm_middle.append_left s.bouncing).trans List.perm_middle).symm
      have held : (curr.toList ++ s.held).Perm s'.held := by
        cases curr with
        | none => simp [Session.held, s']
        | some curr =>
          simp only [Session.held, s', Option.toList_some, List.map_append, List.map_cons, List.map_nil,
            List.append_assoc, List.cons_append, List.nil_append]
          exact List.perm_middle.symm
      refine ⟨s', pending, waiting', ?_, sound.grow s' [] [] (records'.perm alone held) before unique keeps
        (List.append_nil _).symm sound.order ⟨Nat.le_succ _, ?_⟩ (List.append_nil _).symm (.inr ⟨.inr ⟨rfl, ?_⟩, rfl, ?_⟩)⟩
      · simp only [done, bind, Option.bind_some]
        rfl
      · have bound := fewer.length_le
        simp only [List.length_append, List.length_singleton] at bound
        omega
      · rw [FuseIn.wantsAnswer, body]
      · apply List.subperm_ext_iff.mpr
        intro k _
        have less := fewer.count_le k
        have shared := alone.count_eq k
        simp only [Session.owed, List.count_append, List.count_cons, List.count_nil] at less shared ⊢
        change _ + (_ + s'.alone.count k) ≤ _
        change (s.inFlight.map Prod.fst).count k + _ ≤ _
        omega
    · next other =>
      obtain ⟨mem', intr, waiting', done, records', keeps, fewer⟩ := records.enlist_spec few'
      let s' : Session :=
        { s with
          ll := { newReq address in_ s.ll with mem := mem' }
          inFlight := s.inFlight ++ [(.req address, in_)]
          bouncing := s.bouncing ++ intr.toList }
      have alone : (intr.toList ++ s.alone).Perm s'.alone := by
        rw [Session.alone, Session.alone, ← List.append_assoc]
        exact List.perm_append_comm.append_right _
      have order : (pending ++ [ReqPtr.req address]).Perm (s'.inFlight.map Prod.fst ++ s'.answered) := by
        rw [List.perm_iff_count]
        intro k
        have same := sound.order.count_eq k
        simp only [s', List.map_append, List.map_cons, List.map_nil, List.count_append] at same ⊢
        omega
      refine ⟨s', pending ++ [.req address], waiting', ?_, sound.grow s' [] [(.req address, in_)]
        (records'.perm alone (List.Perm.refl _)) before unique keeps rfl order ⟨?_, ?_⟩ (List.append_nil _).symm
        (.inr ⟨.inl rfl, rfl, ?_⟩)⟩
      · simp only [done, bind, Option.bind_some]
        rfl
      · rw [List.length_append, List.length_singleton]
      · have bound := fewer.length_le
        rw [List.length_append] at bound
        omega
      · apply List.subperm_ext_iff.mpr
        intro k _
        have less := fewer.count_le k
        have shared := alone.count_eq k
        have flies : (s'.inFlight.map Prod.fst).count k =
            (s.inFlight.map Prod.fst).count k + [ReqPtr.req address].count k := by
          simp only [s', List.map_append, List.count_append, List.map_cons, List.map_nil]
        simp only [Session.owed, List.count_append, List.count_cons, List.count_nil] at less shared flies ⊢
        omega

/-! ## Steps and runs -/

/-- Any step that a thread may take can be taken. -/
theorem step (sound : s.Sound pending waiting received) (enough : received.length < fuel) {a : Action}
    (enabled : s.Enabled a) :
    ∃ s' pending' waiting', s.step fuel a = some s' ∧ s'.Sound pending' waiting' (received ++ a.received) := by
  cases a with
  | receive address in_ =>
    cases address with
    | none => exact ⟨s, pending, waiting, rfl, by simpa only [Action.received, List.append_nil] using sound⟩
    | some address => exact sound.receive (enabled address rfl) enough in_
  | own req in_ =>
    obtain ⟨s', done, sound'⟩ := sound.answerOwn enabled.1
    exact ⟨s', pending, waiting, done, by simpa only [Action.received, List.append_nil] using sound'⟩
  | reply req in_ error payload =>
    obtain ⟨ll, wrote, sound'⟩ := sound.reply (f := s.ll) enabled.1 error payload rfl rfl
    refine ⟨s.wrote req in_ ll, pending, waiting, ?_, by simpa only [Action.received, List.append_nil] using sound'⟩
    simp only [Session.step, wrote, bind, Option.bind_some]
  | free req =>
    obtain ⟨s', pending', done, sound'⟩ := sound.free enabled fuel
    exact ⟨s', pending', waiting, done, by simpa only [Action.received, List.append_nil] using sound'⟩
  | bounce intr =>
    obtain ⟨s', done, sound'⟩ := sound.bounce enabled fuel
    exact ⟨s', pending, waiting, done, by simpa only [Action.received, List.append_nil] using sound'⟩
  | mark intr curr =>
    obtain ⟨s', done, sound'⟩ := sound.mark enabled fuel
    exact ⟨s', pending, waiting, done, by simpa only [Action.received, List.append_nil] using sound'⟩
  | release intr curr =>
    obtain ⟨s', done, sound'⟩ := sound.release enabled fuel
    exact ⟨s', pending, waiting, done, by simpa only [Action.received, List.append_nil] using sound'⟩

end Session.Sound

theorem Session.Fresh.sound (fresh : s.Fresh) : s.Sound [] [] [] := by
  obtain ⟨inFlight, answered, bouncing, marking, releasing⟩ := fresh.idle
  have alone : s.alone = [] := by rw [Session.alone, bouncing, marking, releasing]; rfl
  have held : s.held = [] := by rw [Session.held, marking, releasing]; rfl
  have nobody : s.ll.mem.counts = fun _ => none := by
    funext k
    cases k with
    | req address => rw [Mem.counts, Mem.data, fresh.nothing]; rfl
    | list => rfl
    | interrupts => rfl
  refine ⟨⟨.single fresh.list, .single fresh.interrupts, ?_, ?_, ?_, ?_⟩, ?_, ⟨Nat.le_refl _, Nat.le_refl _⟩, ?_, ?_, ?_⟩
  · rw [alone]
    exact fun m member => absurd member List.not_mem_nil
  · rw [alone]
    exact List.nodup_nil
  · rw [held]
    exact fun m member => absurd member List.not_mem_nil
  · rw [alone, held, nobody]
    intro k
    rfl
  · rw [inFlight, answered]
    rfl
  · rw [inFlight]
    exact fun p member => absurd member List.not_mem_nil
  · intro u
    rw [Session.owed, inFlight, alone, fresh.silent]
    exact Nat.le_refl _
  · intro u
    exact Nat.zero_le _

/-- The messages that come in during a run and have a record. -/
def messages (actions : List Action) : List FuseIn := actions.flatMap Action.received

theorem length_messages (actions : List Action) : (messages actions).length ≤ actions.length := by
  induction actions with
  | nil => exact Nat.le_refl _
  | cons a actions ih =>
    have one : a.received.length ≤ 1 := by
      unfold Action.received
      split <;> simp
    simp only [messages, List.flatMap_cons, List.length_append, List.length_cons] at ih ⊢
    omega

theorem Session.Fresh.sound_of_run {s₀ : Session} (fresh : s₀.Fresh) {actions : List Action}
    (run : Run (Session.Step fuel) s₀ actions s) (enough : actions.length ≤ fuel) :
    ∃ pending waiting, s.Sound pending waiting (messages actions) := by
  induction run with
  | start => exact ⟨[], [], fresh.sound⟩
  | @snoc past source target a run last ih =>
    rw [List.length_append, List.length_singleton] at enough
    obtain ⟨pending, waiting, sound⟩ := ih (by omega)
    have bound := length_messages past
    obtain ⟨s', pending', waiting', done, sound'⟩ := sound.step (Nat.lt_of_le_of_lt bound enough) last.1
    obtain rfl := Option.some.inj (last.2.symm.trans done)
    refine ⟨pending', waiting', ?_⟩
    rwa [messages, List.flatMap_append, List.flatMap_singleton]

/-! ## A concrete session -/

/-- A session that was just made. -/
def newSession : Session where
  ll :=
    { bufsize := 135168
      mem := fun
        | .req _ => none
        | head => some { next := head, prev := head } }

theorem newSession_fresh : newSession.Fresh :=
  ⟨rfl, rfl, fun _ => rfl, ⟨rfl, rfl, rfl, rfl, rfl⟩, rfl⟩

def initMessage : FuseIn := ⟨1, 0, .init ⟨7, 11, 0x20000, 0⟩⟩

def openMessage : FuseIn := ⟨2, 0, .request (.open_ 1 ⟨0, none⟩)⟩

/-- INIT, and then an open. -/
def openingActions : List Action :=
  [.receive (some 0) initMessage, .own (.req 0) initMessage, .free (.req 0), .receive (some 1) openMessage]

/-- The session after some of these actions. -/
def openingSession (n : ℕ) : Session :=
  ((openingActions.take n).foldlM (Session.step 9) newSession).getD newSession

theorem openingSession_run : Run (Session.Step 9) newSession openingActions (openingSession 4) := by
  have first : Session.Step 9 newSession (.receive (some 0) initMessage) (openingSession 1) :=
    ⟨fun _ given => by cases given; rfl, rfl⟩
  have second : Session.Step 9 (openingSession 1) (.own (.req 0) initMessage) (openingSession 2) :=
    ⟨⟨List.mem_singleton_self _, rfl⟩, rfl⟩
  have third : Session.Step 9 (openingSession 2) (.free (.req 0)) (openingSession 3) := ⟨List.mem_singleton_self _, rfl⟩
  have fourth : Session.Step 9 (openingSession 3) (.receive (some 1) openMessage) (openingSession 4) :=
    ⟨fun _ given => by cases given; rfl, rfl⟩
  exact (((Run.start.snoc first).snoc second).snoc third).snoc fourth

/-- Whatever steps threads have taken, the next one does not touch a record that was freed; and each record counts the
threads and rings that have it, so that it is there as long as there is one. -/
theorem fuse_session_run {s₀ : Session} (fresh : s₀.Fresh) {actions : List Action}
    (run : Run (Session.Step fuel) s₀ actions s) (enough : actions.length < fuel) :
    (∀ a, s.Enabled a → ∃ s', s.step fuel a = some s') ∧
      ∃ waiting, Ring s.ll.mem.links .interrupts waiting ∧
        Counted s.ll.mem.counts (s.inFlight.map Prod.fst ++ s.answered ++ (waiting ++ s.alone) ++ s.held) := by
  obtain ⟨pending, waiting, sound⟩ := fresh.sound_of_run run enough.le
  have bound := Nat.lt_of_le_of_lt (length_messages actions) enough
  refine ⟨fun a enabled => ?_, waiting, sound.records.interrupts, ?_⟩
  · obtain ⟨s', -, -, done, -⟩ := sound.step bound enabled
    exact ⟨s', done⟩
  · exact sound.records.counted.perm ((sound.order.append_right _).append_right _)

theorem fuse_session_run_opening : Run (Session.Step 9) newSession openingActions (openingSession 4) ∧
    (∀ a, (openingSession 4).Enabled a → ∃ s', (openingSession 4).step 9 a = some s') ∧
      ∃ waiting, Ring (openingSession 4).ll.mem.links .interrupts waiting ∧
        Counted (openingSession 4).ll.mem.counts ((openingSession 4).inFlight.map Prod.fst ++
          (openingSession 4).answered ++ (waiting ++ (openingSession 4).alone) ++ (openingSession 4).held) :=
  ⟨openingSession_run, fuse_session_run newSession_fresh openingSession_run (by decide)⟩

end FsPkg.Fuse
