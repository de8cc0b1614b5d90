import FsPkg.Machine.Run
import FsPkg.Model.PkgImportResources
import FsPkg.Proofs.PkgImportTruth
import FsPkg.Proofs.PkgTocWhole

/-! # What imports leave behind

With libxar nothing is ever given back: an archive that was opened stays, and so does its iterator. With libxml2 the
descriptors and the temporary file of `pkg_toc_extract` are given back only if it succeeds, as its `FAIL` frees memory
alone. Each import adds its leftovers in front of what the process holds, so over a run they add up.
-/

namespace FsPkg.Pkg

open Machine Db PkgToc

section Leaks

variable {σ : Type} {variant : TocVariant} {zlib : Zlib σ} {path : Text} {imp : ImportEnv} {env : ResourceEnv}
variable {files : FilesLoop} {fuel : ℕ} {st : State} {c c' : Conn} {held held' : List ImportResource} {code : Int32}

/-! ## The calls -/

/-- What `pkg_toc_extract` leaves, by how it returns. -/
theorem pkgTocExtractHeld_spec {name : Option Text} (ran : pkgTocExtractHeld zlib env fuel held = some (name, held')) :
    (env.toc.open_ = false ∧ name = none ∧ held' = held) ∨
      (env.toc.open_ = true ∧ env.toc.mkstemp = none ∧ name = none ∧ held' = .descriptor env.infd :: held) ∨
      ∃ tmp after, env.toc.open_ = true ∧ env.toc.mkstemp = some tmp ∧
        pkgTocExtractSized zlib env.toc env.zbufsize env.header env.file fuel = some (name, after) ∧
        held' = if name.isSome then .temporary tmp :: held
          else .temporary tmp :: .descriptor env.outfd :: .descriptor env.infd :: held := by
  unfold pkgTocExtractHeld at ran
  cases opened : env.toc.open_ with
  | false =>
    rw [opened] at ran
    cases ran
    exact .inl ⟨rfl, rfl, rfl⟩
  | true =>
    rw [opened] at ran
    cases made : env.toc.mkstemp with
    | none =>
      rw [made] at ran
      cases ran
      exact .inr (.inl ⟨rfl, rfl, rfl, rfl⟩)
    | some tmp =>
      rw [made] at ran
      obtain ⟨⟨result, after⟩, extracted, ran⟩ := Option.bind_eq_some_iff.mp ran
      refine .inr (.inr ⟨tmp, after, rfl, rfl, ?_⟩)
      cases result with
      | none =>
        cases ran
        exact ⟨extracted, rfl⟩
      | some result =>
        cases ran
        refine ⟨extracted, ?_⟩
        -- the two descriptors are given back, even if their numbers were the same
        have descriptors : ((.descriptor env.outfd :: .descriptor env.infd :: held : List ImportResource).erase
            (.descriptor env.infd)).erase (.descriptor env.outfd) = held := by
          by_cases same : env.outfd = env.infd
          · rw [same, List.erase_cons_head, List.erase_cons_head]
          · rw [List.erase_cons_tail (by simpa using same), List.erase_cons_head, List.erase_cons_head]
        rw [List.erase_cons_tail (by simp), List.erase_cons_tail (by simp), descriptors]
        rfl

/-- Which way the extraction went does not matter to what is done with the table. -/
theorem tocTransaction_extract (extract : Bool) :
    tocTransaction variant path { imp with toc := { imp.toc with extract } } files c =
      tocTransaction variant path imp files c := by
  unfold tocTransaction
  rw [pkgTocProcess_spec, pkgTocProcess_spec]
  cases variant <;> rfl

/-- `pkg_import` of a package that is not cached, with a table of contents to process. -/
theorem pkgImport_transaction (uncached : pkgHandleByname st path st.pkgList.nodes = some none)
    (began : dbBegin c = some c') (processed : ¬imp.toc.Abandoned variant) :
    pkgImport variant path imp files st c = some (exitSuccess, tocTransaction variant path imp files c') := by
  have late : ¬(variant = .libxml2 ∧ (!imp.toc.extract) = true) := by
    rintro ⟨build, missing⟩
    exact processed ⟨build, by simpa using missing⟩
  simp only [pkgImport, bind, uncached, Option.bind_some, began, tocTransaction]
  rw [if_neg late]
  split <;> rfl

/-- The result and the database are those of `pkg_import` where the extraction came out as it did. -/
theorem pkgImport_of_held
    (ran : pkgImportHeld variant zlib path imp env files fuel st c held = some (code, c', held')) :
    ∃ extract, pkgImport variant path { imp with toc := { imp.toc with extract } } files st c = some (code, c') := by
  unfold pkgImportHeld at ran
  obtain ⟨found, cache, ran⟩ := Option.bind_eq_some_iff.mp ran
  cases found with
  | some pkg =>
    simp only [Option.some.injEq, Prod.mk.injEq] at ran
    obtain ⟨rfl, rfl, -⟩ := ran
    exact ⟨true, pkgImport_cached cache⟩
  | none =>
    obtain ⟨begun, began, ran⟩ := Option.bind_eq_some_iff.mp ran
    cases variant with
    | libxar =>
      simp only [Option.some.injEq, Prod.mk.injEq] at ran
      obtain ⟨rfl, rfl, -⟩ := ran
      refine ⟨true, ?_⟩
      rw [pkgImport_transaction cache began, tocTransaction_extract]
      rintro ⟨build, -⟩
      contradiction
    | libxml2 =>
      obtain ⟨⟨tmp, left⟩, -, ran⟩ := Option.bind_eq_some_iff.mp ran
      cases tmp with
      | none =>
        simp only [Option.some.injEq, Prod.mk.injEq] at ran
        obtain ⟨rfl, rfl, -⟩ := ran
        refine ⟨false, ?_⟩
        simp only [pkgImport, bind, cache, Option.bind_some, began]
        exact if_pos ⟨trivial, rfl⟩
      | some tmp =>
        simp only [Option.some.injEq, Prod.mk.injEq] at ran
        obtain ⟨rfl, rfl, -⟩ := ran
        refine ⟨true, ?_⟩
        rw [pkgImport_transaction cache began, tocTransaction_extract]
        rintro ⟨-, missing⟩
        contradiction

/-! ## What is left of one import -/

/-- The package is cached; or with libxar, it cannot be opened; or with libxml2, it cannot be opened, or its table can be
extracted and the temporary file removed. -/
def GivesBack (variant : TocVariant) (Refuses : σ → List UInt8 → Prop) (zlib : Zlib σ) (path : Text) (imp : ImportEnv)
    (env : ResourceEnv) (st : State) : Prop :=
  (∃ pkg, pkgHandleByname st path st.pkgList.nodes = some (some pkg)) ∨
    (variant = .libxar ∧ imp.toc.xarOpen = false) ∨
    (variant = .libxml2 ∧ (env.toc.open_ = false ∨
      (Extractable Refuses zlib env.toc env.zbufsize env.header env.file ∧ env.unlink = true)))

variable {Ended : σ → Prop} {Refuses : σ → List UInt8 → Prop} {pending : σ → List UInt8 → ℕ}

/-- With libxar an archive that was opened is left. -/
theorem pkgTocProcessHeld_spec (toc : TocEnv) (env : ResourceEnv) (held : List ImportResource) :
    ∃ left, pkgTocProcessHeld toc env held = left ++ held ∧ (left = [] ↔ toc.xarOpen = false) := by
  unfold pkgTocProcessHeld
  cases toc.xarOpen with
  | false => exact ⟨[], rfl, iff_of_true rfl rfl⟩
  | true =>
    cases toc.xarIterNew with
    | false => exact ⟨[.archive env.archive], rfl, iff_of_false nofun nofun⟩
    | true => exact ⟨[.iterator env.iterator, .archive env.archive], rfl, iff_of_false nofun nofun⟩

/-- With libxml2 something is left unless the package could not be opened, or there is a name. -/
theorem extractHeld_left {name : Option Text} (judged : zlib.Judged Ended Refuses pending)
    (ran : pkgTocExtractHeld zlib env fuel held = some (name, held')) :
    ∃ left, held' = left ++ held ∧
      (name = none → (left = [] ↔ env.toc.open_ = false) ∧
        ¬(env.toc.open_ = true ∧ Extractable Refuses zlib env.toc env.zbufsize env.header env.file)) ∧
      ∀ tmp, name = some tmp → left = [.temporary tmp] ∧ env.toc.open_ = true ∧
        Extractable Refuses zlib env.toc env.zbufsize env.header env.file := by
  rcases pkgTocExtractHeld_spec ran with
    ⟨closed, rfl, rfl⟩ | ⟨opened, unmade, rfl, rfl⟩ | ⟨tmp, after, opened, made, extracted, rfl⟩
  · refine ⟨[], rfl, fun _ => ⟨iff_of_true rfl closed, ?_⟩, nofun⟩
    rintro ⟨opened, -⟩
    rw [closed] at opened
    contradiction
  · refine ⟨[.descriptor env.infd], rfl, fun _ => ⟨iff_of_false nofun (by rw [opened]; nofun), ?_⟩, nofun⟩
    rintro ⟨-, reads, io, -, -, some_, -⟩
    obtain ⟨tmp, -, -, made, -⟩ := headerReads_eq_some some_
    rw [unmade] at made
    contradiction
  · have named := named_iff judged extracted
    cases name with
    | none =>
      refine ⟨[.temporary tmp, .descriptor env.outfd, .descriptor env.infd], rfl, ?_, nofun⟩
      intro _
      refine ⟨iff_of_false nofun (by rw [opened]; nofun), ?_⟩
      rintro ⟨-, extractable⟩
      exact absurd (named.mpr extractable) nofun
    | some name =>
      refine ⟨[.temporary tmp], rfl, nofun, ?_⟩
      rintro _ ⟨⟩
      have made' := mkstemp_of_ran judged.stream.output_le extracted
      cases made.symm.trans made'
      exact ⟨rfl, opened, named.mp rfl⟩

/-- An import that returns has put its leftovers in front of what was held, and there are none exactly under the
condition. -/
theorem pkgImportHeld_left (judged : zlib.Judged Ended Refuses pending)
    (ran : pkgImportHeld variant zlib path imp env files fuel st c held = some (code, c', held')) :
    ∃ left, held' = left ++ held ∧ (left = [] ↔ GivesBack variant Refuses zlib path imp env st) := by
  unfold pkgImportHeld at ran
  obtain ⟨found, cache, ran⟩ := Option.bind_eq_some_iff.mp ran
  unfold GivesBack
  cases found with
  | some pkg =>
    simp only [Option.some.injEq, Prod.mk.injEq] at ran
    obtain ⟨-, -, rfl⟩ := ran
    exact ⟨[], rfl, iff_of_true rfl (.inl ⟨pkg, cache⟩)⟩
  | none =>
    obtain ⟨begun, began, ran⟩ := Option.bind_eq_some_iff.mp ran
    have uncached : ¬∃ pkg, pkgHandleByname st path st.pkgList.nodes = some (some pkg) := by
      rintro ⟨pkg, cached⟩
      exact absurd (cache.symm.trans cached) nofun
    cases variant with
    | libxar =>
      simp only [Option.some.injEq, Prod.mk.injEq] at ran
      obtain ⟨-, -, rfl⟩ := ran
      obtain ⟨left, whole, empty⟩ := pkgTocProcessHeld_spec imp.toc env held
      refine ⟨left, whole, ?_⟩
      rw [empty, or_iff_right uncached]
      simp
    | libxml2 =>
      obtain ⟨⟨name, between⟩, extracted, ran⟩ := Option.bind_eq_some_iff.mp ran
      obtain ⟨left, rfl, failed, named⟩ := extractHeld_left judged extracted
      rw [or_iff_right uncached]
      cases name with
      | none =>
        simp only [Option.some.injEq, Prod.mk.injEq] at ran
        obtain ⟨-, -, rfl⟩ := ran
        obtain ⟨empty, unable⟩ := failed rfl
        refine ⟨left, rfl, ?_⟩
        rw [empty]
        constructor
        · exact fun closed => .inr ⟨rfl, .inl closed⟩
        · rintro (⟨build, -⟩ | ⟨-, closed | ⟨extractable, -⟩⟩)
          · contradiction
          · exact closed
          · rw [← Bool.not_eq_true]
            exact fun opened => unable ⟨opened, extractable⟩
      | some tmp =>
        obtain ⟨rfl, opened, extractable⟩ := named tmp rfl
        simp only [Option.some.injEq, Prod.mk.injEq] at ran
        obtain ⟨-, -, rfl⟩ := ran
        cases removed : env.unlink with
        | false => exact ⟨[.temporary tmp], rfl, iff_of_false nofun (by simp [opened])⟩
        | true => exact ⟨[], List.erase_cons_head .., iff_of_true rfl (by simp [extractable])⟩

/-! ## Runs -/

/-- One import of a run: what it is given, in whatever state the cache and the database are by then. -/
structure ImportRun where
  path : Text
  imp : ImportEnv
  env : ResourceEnv
  cache : State
  conn : Conn

/-- The import returns, and this is held before and after it. -/
def importStep (variant : TocVariant) (zlib : Zlib σ) (held : List ImportResource) (call : ImportRun)
    (held' : List ImportResource) : Prop :=
  ∃ fuel code c', pkgImportHeld variant zlib call.path call.imp call.env noFiles fuel call.cache call.conn held =
    some (code, c', held')

def ImportRun.GivesBack (variant : TocVariant) (Refuses : σ → List UInt8 → Prop) (zlib : Zlib σ) (call : ImportRun) :
    Prop :=
  Pkg.GivesBack variant Refuses zlib call.path call.imp call.env call.cache

/-- Over a run the leftovers add up. -/
theorem run_left (judged : zlib.Judged Ended Refuses pending) {calls : List ImportRun}
    (run : Run (importStep variant zlib) held calls held') :
    ∃ left, held' = left ++ held ∧ (left = [] ↔ ∀ call ∈ calls, call.GivesBack variant Refuses zlib) := by
  refine run.history (I := fun calls held' => ∃ left, held' = left ++ held ∧
    (left = [] ↔ ∀ call ∈ calls, call.GivesBack variant Refuses zlib)) ?_ ?_
  · exact ⟨[], rfl, iff_of_true rfl (List.forall_mem_nil _)⟩
  · rintro past source call target - ⟨left, rfl, empty⟩ ⟨fuel, code, c', ran⟩
    obtain ⟨more, rfl, none_⟩ := pkgImportHeld_left judged ran
    refine ⟨more ++ left, (List.append_assoc ..).symm, ?_⟩
    rw [List.append_eq_nil_iff, empty, none_, List.forall_mem_append, List.forall_mem_singleton, and_comm]
    rfl

/-- After any number of imports, the process holds what it held before exactly if each of them gave back what it took:
its package was cached or could not be opened, or, with libxml2, its table was extracted and the file removed. -/
theorem pkgImport_leaks_iff (judged : zlib.Judged Ended Refuses pending) {calls : List ImportRun}
    (run : Run (importStep variant zlib) held calls held') :
    held' = held ↔ ∀ call ∈ calls, call.GivesBack variant Refuses zlib := by
  obtain ⟨left, rfl, empty⟩ := run_left judged run
  rw [← empty]
  exact List.append_left_eq_self

end Leaks

/-- The small package is imported; every descriptor is handed out anew, and its temporary file can be removed. -/
def smallImport (toc : PkgToc.TocEnv) : ImportRun where
  path := ['/', 'a']
  imp := { add := { stat := .ok 1 } }
  env := { toc, zbufsize := 1310720, header := List.replicate 28 0, file := smallHeader ++ smallToc, infd := 3,
           outfd := 4, archive := 0, iterator := 0, unlink := true }
  cache := smallCache
  conn := oneConn

/-- The table of the small package can be extracted. -/
theorem smallImport_extractable :
    Extractable (fun _ _ => False) (storedZlib 2) willing 1310720 (List.replicate 28 0) (smallHeader ++ smallToc) := by
  refine ⟨_, _, _, _, headerReads_small (smallHeader ++ smallToc) (by simp), rfl, rfl, .inr ⟨by decide, by decide, ?_, id⟩⟩
  exact .piece (by decide) rfl .done

/-- The import of the small package with libxml2 returns if the extraction does. -/
theorem importStep_small {toc : PkgToc.TocEnv} {fuel : ℕ} {name : Option Text} {held held' : List ImportResource}
    (extracted : pkgTocExtractHeld (storedZlib 2) (smallImport toc).env fuel held = some (name, held')) :
    ∃ final, importStep .libxml2 (storedZlib 2) held (smallImport toc) final := by
  have cache : pkgHandleByname smallCache ['/', 'a'] smallCache.pkgList.nodes = some none := smallCache_uncached _
  have began := dbBegin_spec oneConn_closed
  cases name with
  | none =>
    refine ⟨held', fuel, exitFailure, oneConn.begun, ?_⟩
    simp only [pkgImportHeld, smallImport, bind, cache, began, Option.bind_some]
    exact congrArg (Option.bind · _) extracted
  | some tmp =>
    refine ⟨held'.erase (.temporary tmp), fuel, exitSuccess,
      tocTransaction .libxml2 ['/', 'a'] (smallImport toc).imp noFiles oneConn.begun, ?_⟩
    simp only [pkgImportHeld, smallImport, bind, cache, began, Option.bind_some]
    exact congrArg (Option.bind · _) extracted

/-- The import of a good package with libxml2 leaves nothing behind. -/
theorem pkgImport_leaks_small :
    ∃ final, Run (importStep .libxml2 (storedZlib 2)) [] [smallImport willing] final ∧ final = [] := by
  have ends : Ends (storedZlib 2) willing 1310720 (List.replicate 28 0) (smallHeader ++ smallToc) := by
    rw [ends_of_read (storedZlib_judged 2) willing_reads (headerReads_small (smallHeader ++ smallToc) (by simp)) rfl]
    refine ⟨by decide, by decide, ?_⟩
    intro init _
    exact .inr (.inr ⟨by decide, .inr (.inl (by decide))⟩)
  obtain ⟨fuel, ⟨name, after⟩, ran⟩ := ends
  have extracted : ∃ name held, pkgTocExtractHeld (storedZlib 2) (smallImport willing).env fuel [] = some (name, held) := by
    cases name with
    | none => exact ⟨_, _, congrArg (Option.bind · _) ran⟩
    | some name => exact ⟨_, _, congrArg (Option.bind · _) ran⟩
  obtain ⟨name, held, extracted⟩ := extracted
  obtain ⟨final, step⟩ := importStep_small extracted
  refine ⟨final, .single step, (pkgImport_leaks_iff (storedZlib_judged 2) (.single step)).mpr ?_⟩
  rw [List.forall_mem_singleton]
  exact .inr (.inr ⟨rfl, .inr ⟨smallImport_extractable, rfl⟩⟩)

/-- With libxar the import of a good package leaves its archive; with libxml2 the import of one beside which no temporary
file can be made leaves a descriptor. -/
theorem pkgImport_leaks :
    (∃ final, Run (importStep .libxar (storedZlib 2)) [] [smallImport willing] final ∧ final ≠ []) ∧
      ∃ final, Run (importStep .libxml2 (storedZlib 2)) [] [smallImport { willing with mkstemp := none }] final ∧
        final ≠ [] := by
  have cache : pkgHandleByname smallCache ['/', 'a'] smallCache.pkgList.nodes = some none := smallCache_uncached _
  have began := dbBegin_spec oneConn_closed
  refine ⟨⟨[.iterator 0, .archive 0], .single ⟨0, exitSuccess, tocTransaction .libxar ['/', 'a'] (smallImport willing).imp
    noFiles oneConn.begun, ?_⟩, nofun⟩, ⟨[.descriptor 3], .single ⟨0, exitFailure, oneConn.begun, ?_⟩, nofun⟩⟩
  · simp only [pkgImportHeld, smallImport, bind, cache, began, Option.bind_some]
    rfl
  · simp only [pkgImportHeld, smallImport, bind, cache, began, Option.bind_some]
    rfl

end FsPkg.Pkg
