import FsPkg.Proofs.DbSqliteInitialize

/-! # What `db_file_add` stores

The statement names nine columns, `size` not among them, and gives ten values; eight arguments stand for its ten
conversions, one of them a character where a string should be. Whatever the conversions without an argument print, a
text that begins like this is refused, or adds a row without a size, or finds no key and ends the transaction. So the
row that was asked for is never there, unless it was there before and its path is too long for the statement that
should have removed it, or unless what was committed before the transaction has it.
-/

namespace FsPkg.Db

open Sql

/-! ## The text of the statement -/

/-- The columns that are named. -/
def insertFileColumns : List Name :=
  ["package".toList, "path".toList, "type".toList, "owner".toList, "grp".toList, "offset".toList, "ctime".toList,
    "mode".toList, "target".toList]

/-- The tokens in front of the values. -/
def insertFileTokens : List Token :=
  [.word "insert".toList, .word "into".toList, .word "files".toList, .sym '(', .word "package".toList, .sym ',',
    .word "path".toList, .sym ',', .word "type".toList, .sym ',', .word "owner".toList, .sym ',',
    .word "grp".toList, .sym ',', .word "offset".toList, .sym ',', .word "ctime".toList, .sym ',',
    .word "mode".toList, .sym ',', .word "target".toList, .sym ')', .word "values".toList, .sym '(']

/-- The text in front of the values. -/
def insertFileText : List Char :=
  "INSERT INTO files (package, path, type, owner, grp, offset, ctime, mode, target) VALUES (".toList

theorem length_insertFileText : insertFileText.length = 89 := by
  change ("INSERT INTO files (package, path, type, owner, grp, offset, ctime, mode, target) VALUES (".toList).length = 89
  rw [String.toList_ofList]
  rfl

theorem reads_insertFile : Lexer.run {} insertFileText = some ⟨insertFileTokens.reverse, .blank⟩ := by
  change Lexer.run {}
    "INSERT INTO files (package, path, type, owner, grp, offset, ctime, mode, target) VALUES (".toList = _
  rw [String.toList_ofList]
  decide +kernel

/-- A statement that begins like this inserts values into these columns. -/
theorem parse_insertFile (rest : List Token) : parse (insertFileTokens ++ rest) =
    (Parser.commaList Parser.literal rest.length rest).bind fun read =>
      Parser.finished (.insert "files".toList insertFileColumns read.1) read.2 := by
  have create : Parser.createTable (insertFileTokens ++ rest) = none := rfl
  have drop : Parser.dropTable (insertFileTokens ++ rest) = none := rfl
  have delete : Parser.delete (insertFileTokens ++ rest) = none := rfl
  have select : Parser.select (insertFileTokens ++ rest) = none := rfl
  have insert : Parser.insert (insertFileTokens ++ rest) =
      (Parser.commaList Parser.literal rest.length rest).bind fun read =>
        Parser.finished (.insert "files".toList insertFileColumns read.1) read.2 := rfl
  have others : parse (insertFileTokens ++ rest) =
      (Parser.createTable (insertFileTokens ++ rest) <|> Parser.dropTable (insertFileTokens ++ rest) <|>
        Parser.insert (insertFileTokens ++ rest) <|> Parser.delete (insertFileTokens ++ rest) <|>
        Parser.select (insertFileTokens ++ rest)) := rfl
  rw [others, create, drop, delete, select, ← insert]
  simp only [Option.orElse_eq_orElse, Option.orElse_eq_or, Option.none_or, Option.or_none]

/-- Whatever follows the text in front of the values. -/
theorem prepare_insertFile {rest : List Char} {statement : Statement}
    (prepared : prepare (insertFileText ++ rest) = some statement) :
    ∃ values, statement = .insert "files".toList insertFileColumns values := by
  obtain ⟨tokens, lexed, parsed⟩ := Option.bind_eq_some_iff.mp prepared
  obtain ⟨more, rfl⟩ : ∃ more, tokens = insertFileTokens ++ more := by
    rw [lex, Lexer.run_append, reads_insertFile] at lexed
    simp only [bind, Option.bind_some] at lexed
    obtain ⟨last, ran, ended⟩ := Option.bind_eq_some_iff.mp lexed
    obtain ⟨final, finished, reversed⟩ := Option.bind_eq_some_iff.mp ended
    obtain ⟨more, rfl⟩ := Lexer.complete_keeps (show Lexer.complete _ rest = some final by
      rw [Lexer.complete, ran]
      exact finished)
    refine ⟨more.reverse, ?_⟩
    rw [← Option.some.inj reversed, List.reverse_append, List.reverse_reverse]
  rw [parse_insertFile] at parsed
  obtain ⟨read, -, ended⟩ := Option.bind_eq_some_iff.mp parsed
  refine ⟨read.1, ?_⟩
  cases tail : read.2 with
  | nil =>
    rw [tail] at ended
    exact (Option.some.inj ended).symm
  | cons token rest =>
    rw [tail] at ended
    contradiction

section Add

variable {c : Conn} {p f : Table} {pkg : Int32} {path : List Char} {type : Char} {owner grp : UInt32} {size : UInt64} {offset ctime : Int64}

/-- The text up to the path and behind it. -/
theorem vformat_insertFile (pkg : UInt64) (path : List Char) (args : List Arg) : ∃ rest,
    vformat insertFileFmt.toList (.ulong pkg :: .str path :: args) =
      insertFileText ++ (Nat.toDigits 10 pkg.toNat ++ (", '".toList ++ (path ++ rest))) := by
  have split : insertFileFmt.toList = insertFileText ++ '%' :: 'l' :: 'u' :: (", '".toList ++ '%' :: 's' ::
      "', '%s', %lu, %lu, %lu, %lu, %lu, '%s', %lu);".toList) := by
    change ("INSERT INTO files (package, path, type, owner, grp, offset, ctime, mode, target) VALUES (%lu, '%s', '%s', %lu, %lu, %lu, %lu, %lu, '%s', %lu);".toList) =
      "INSERT INTO files (package, path, type, owner, grp, offset, ctime, mode, target) VALUES (".toList ++ _
    rw [String.toList_ofList, String.toList_ofList, String.toList_ofList, String.toList_ofList]
    rfl
  have before : '%' ∉ insertFileText := by
    change '%' ∉ "INSERT INTO files (package, path, type, owner, grp, offset, ctime, mode, target) VALUES (".toList
    rw [String.toList_ofList]
    decide
  have middle : '%' ∉ ", '".toList := by
    rw [String.toList_ofList]
    decide
  refine ⟨vformat "', '%s', %lu, %lu, %lu, %lu, %lu, '%s', %lu);".toList args, ?_⟩
  rw [split, vformat_plain before, vformat_ulong, vformat_plain middle, vformat_str]

theorem newRow_size {t : Table} (values : List Value) :
    t.newRow insertFileColumns values "inode".toList "size".toList = .null := by
  have unnamed : Table.given insertFileColumns values "size".toList = none := by
    rw [Table.given, List.lookup_eq_none_iff]
    intro pair member
    have column : pair.1 ∈ insertFileColumns := (List.of_mem_zip member).1
    rw [bne_iff_ne]
    intro same
    rw [← same] at column
    revert column
    decide
  rw [Table.newRow, if_neg (by decide), unnamed]
  cases t.affinity "size".toList <;> rfl

theorem insert_files (columns : f.columns = filesColumns) {values : List Value} {next : Table}
    (inserted : f.insert insertFileColumns values = some next) :
    ∃ row seq, row "size".toList = .null ∧ next = { f with rows := f.rows ++ [row], seq } := by
  have key : f.key = some "inode".toList := by
    rw [Table.key, columns]
    rfl
  simp only [Table.insert, key, bind, Option.bind_some] at inserted
  split at inserted
  · cases inserted
    exact ⟨f.newRow insertFileColumns values "inode".toList, _, newRow_size values, rfl⟩
  · contradiction

/-- The statement is refused, or adds a row without a size, or has no key for it. -/
theorem insertFile_spec (tables : Tables c.view p f) (pkg : UInt64) (path : List Char) (args : List Arg) :
    (dbQuery insertFileFmt (.ulong pkg :: .str path :: args) .done c).2 = c ∨
    (∃ row seq, row "size".toList = .null ∧ (dbQuery insertFileFmt (.ulong pkg :: .str path :: args) .done c).2 =
      c.setView (write c.view p { f with rows := f.rows ++ [row], seq })) ∨
    ∃ statement, prepare (vsnprintf sqlBufsize insertFileFmt.toList (.ulong pkg :: .str path :: args)) =
        some statement ∧ exhausts c.view statement = true := by
  have whole : ∃ rest, vsnprintf sqlBufsize insertFileFmt.toList (.ulong pkg :: .str path :: args) =
      insertFileText ++ rest := by
    obtain ⟨rest, text⟩ := vformat_insertFile pkg path args
    rw [vsnprintf, text, List.take_append, List.take_of_length_le]
    · exact ⟨_, rfl⟩
    · rw [length_insertFileText]
      decide
  obtain ⟨rest, text⟩ := whole
  cases prepared : prepare (vsnprintf sqlBufsize insertFileFmt.toList (.ulong pkg :: .str path :: args)) with
  | none =>
    refine .inl ?_
    simp only [dbQuery, prepared]
  | some statement =>
    obtain ⟨values, rfl⟩ := prepare_insertFile (text ▸ prepared)
    by_cases full : exhausts c.view (.insert "files".toList insertFileColumns values) = true
    · exact .inr (.inr ⟨_, rfl, full⟩)
    · rw [dbQuery_prepared prepared]
      cases inserted : f.insert insertFileColumns values with
      | none =>
        refine .inl ?_
        simp only [Conn.exec, Sql.exec, tables.files, bind, Option.bind_some, inserted, Option.bind_none,
          Option.map_none, if_neg full]
      | some next =>
        obtain ⟨row, seq, unsized, rfl⟩ := insert_files tables.filesColumns inserted
        refine .inr (.inl ⟨row, seq, unsized, ?_⟩)
        rw [← tables.update_files]
        simp only [Option.bind_some, Conn.exec, Sql.exec, tables.files, bind, inserted, Option.map_some]

/-- A statement without a key for its row ends the transaction. -/
theorem dbQuery_exhausted {fmt : String} {args : List Arg} {statement : Statement}
    (prepared : prepare (vsnprintf sqlBufsize fmt.toList args) = some statement)
    (full : exhausts c.view statement = true) : dbQuery fmt args .done c = ([], c.cancel) := by
  have refused : c.exec statement = none := by
    cases statement with
    | insert table columns values =>
      simp only [exhausts] at full
      cases found : c.view table with
      | none =>
        rw [found] at full
        contradiction
      | some t =>
        rw [found] at full
        obtain ⟨key, there, both⟩ := (Option.any_eq_true ..).mp full
        obtain ⟨-, last⟩ := Bool.and_eq_true_iff.mp both
        have none_left : decide (t.lastKey key + 1 < 2 ^ 63) = false :=
          decide_eq_false (not_lt.mpr (of_decide_eq_true last))
        simp only [Conn.exec, Sql.exec, found, Table.insert, Option.mem_def.mp there, bind, Option.bind_some,
          none_left, Bool.and_false, Bool.false_eq_true, if_false, Option.bind_none, Option.map_none]
    | begin | commit | rollback | createTable | dropTable | delete | select => contradiction
  rw [dbQuery_prepared prepared, refused]
  simp only [full, if_true]

/-! ## The row that was asked for -/

/-- The row is one of this package and path. -/
def isFile (pkg : Int32) (path : List Char) (row : Row) : Bool :=
  inPackage pkg.toUInt32.toUInt64 row && hasPath path row

/-- The table has one row of this package and path, which holds the arguments, and its other rows are those it had
before. -/
structure StoresFile (pkg : Int32) (path : List Char) (type : Char) (owner grp : UInt32) (size : UInt64)
    (offset ctime : Int64) (before after : Table) : Prop where
  row : ∃ row, after.rows.filter (isFile pkg path) = [row] ∧ row "type".toList = .text [type] ∧
    row "owner".toList = .int owner.toNat ∧ row "grp".toList = .int grp.toNat ∧
    row "size".toList = numeral size.toNat ∧ row "offset".toList = .int offset.toInt ∧
    row "ctime".toList = .int ctime.toInt
  others : after.rows.filter (fun row => !isFile pkg path row) = before.rows.filter fun row => !isFile pkg path row

/-- The call returns, and the table it leaves stores the file. -/
def AddsFile (pkg : Int32) (path : List Char) (type : Char) (owner grp : UInt32) (size : UInt64)
    (offset ctime : Int64) (misread : Misread) (c : Conn) (f : Table) : Prop :=
  ∃ c' f', dbFileAdd pkg path type owner grp size offset ctime misread c = some (0, c') ∧
    c'.view "files".toList = some f' ∧ StoresFile pkg path type owner grp size offset ctime f f'

theorem numeral_ne_null (n : ℕ) : numeral n ≠ .null := by
  unfold numeral
  split <;> nofun

/-- Once the old rows are gone, no row of the size is there. -/
theorem not_stores_of_dropped {before after : Table} (row : Row)
    (unsized : row "size".toList = .null)
    (rows : after.rows = (dropFile pkg.toUInt32.toUInt64 path before).rows ∨
      after.rows = (dropFile pkg.toUInt32.toUInt64 path before).rows ++ [row]) :
    ¬StoresFile pkg path type owner grp size offset ctime before after := by
  have gone : (dropFile pkg.toUInt32.toUInt64 path before).rows.filter (isFile pkg path) = [] := by
    rw [List.filter_eq_nil_iff]
    intro other member
    have kept := (List.mem_filter.mp member).2
    rw [Bool.not_eq_true', ← isFile] at kept
    rw [kept]
    exact Bool.false_ne_true
  rintro ⟨⟨stored, one, -, -, -, sized, -⟩, -⟩
  rcases rows with rows | rows
  · rw [rows, gone] at one
    contradiction
  · rw [rows, List.filter_append, gone, List.nil_append] at one
    have same : stored = row := by
      have member : stored ∈ [row].filter (isFile pkg path) := by
        rw [one]
        exact List.mem_cons_self
      exact List.mem_singleton.mp (List.mem_filter.mp member).1
    rw [same, unsized] at sized
    exact numeral_ne_null _ sized.symm

/-! ## Paths that are too long -/

/-- The tokenizer has read the values in front of the path. -/
theorem reads_insertFile_path (pkg : UInt64) : ∃ tokens,
    Lexer.run {} (insertFileText ++ (Nat.toDigits 10 pkg.toNat ++ ", '".toList)) = some ⟨tokens, .literal []⟩ := by
  obtain ⟨acc, digits, -⟩ := Lexer.run_toDigits insertFileTokens.reverse pkg.toNat
  have after : ", '".toList = [',', ' ', '\''] := String.toList_ofList
  refine ⟨.sym ',' :: Lexer.numberToken acc :: insertFileTokens.reverse, ?_⟩
  rw [Lexer.run_append, reads_insertFile, Option.bind_some, Lexer.run_append, digits, Option.bind_some, after]
  rfl

/-- A query whose text is not a statement has no effect. -/
theorem dbQuery_refused {fmt : String} {args : List Arg} (refused : lex (vsnprintf sqlBufsize fmt.toList args) = none) :
    dbQuery fmt args .done c = ([], c) := by
  simp only [dbQuery, prepare, refused, Option.bind_none]

/-- Both texts are cut off inside a path that does not fit. -/
theorem refused_of_not_fits (plain : '\'' ∉ path) {pkg : UInt64} (long : ¬Fits pkg path) (args : List Arg) :
    lex (vsnprintf sqlBufsize deleteFileFmt.toList [.ulong pkg, .str path]) = none ∧
      lex (vsnprintf sqlBufsize insertFileFmt.toList (.ulong pkg :: .str path :: args)) = none := by
  have digits := length_toDigits_le pkg
  unfold Fits at long
  constructor
  · have length := length_deleteFileText pkg
    rw [vsnprintf, vformat_deleteFile]
    apply lex_cut (reads_deleteFile pkg) plain
    · unfold sqlBufsize
      omega
    · omega
  · obtain ⟨tokens, reads⟩ := reads_insertFile_path pkg
    obtain ⟨rest, text⟩ := vformat_insertFile pkg path args
    have length : (insertFileText ++ (Nat.toDigits 10 pkg.toNat ++ ", '".toList)).length =
        92 + (Nat.toDigits 10 pkg.toNat).length := by
      have middle : ", '".toList.length = 3 := by
        rw [String.toList_ofList]
        rfl
      rw [List.length_append, List.length_append, length_insertFileText, middle]
      omega
    have split : insertFileText ++ (Nat.toDigits 10 pkg.toNat ++ (", '".toList ++ (path ++ rest))) =
        insertFileText ++ (Nat.toDigits 10 pkg.toNat ++ ", '".toList) ++ (path ++ rest) := by
      simp only [List.append_assoc]
    rw [vsnprintf, text, split]
    apply lex_cut reads plain
    · unfold sqlBufsize
      omega
    · omega

/-! ## The call -/

/-- The arguments of the `INSERT`, as its conversions take them. -/
def insertFileArgs (pkg : Int32) (path : List Char) (owner grp : UInt32) (size : UInt64) (offset ctime : Int64)
    (third ninth : List Char) (tenth : UInt64) : List Arg :=
  [.ulong pkg.toUInt32.toUInt64, .str path, .str third, .ulong owner.toUInt64, .ulong grp.toUInt64, .ulong size,
    .ulong offset.toUInt64, .ulong ctime.toUInt64, .str ninth, .ulong tenth]

/-- A transaction is open, and what is misread makes the `INSERT` one that SQLite can prepare, but not carry out for
want of a key. -/
def RollsBack (pkg : Int32) (path : List Char) (type : Char) (owner grp : UInt32) (size : UInt64)
    (offset ctime : Int64) (misread : Misread) (c : Conn) (p f : Table) : Prop :=
  c.txn.isSome = true ∧ ∃ third ninth statement, misread.third type = some third ∧ misread.ninth = some ninth ∧
    prepare (vsnprintf sqlBufsize insertFileFmt.toList
      (insertFileArgs pkg path owner grp size offset ctime third ninth misread.tenth)) = some statement ∧
    exhausts (write c.view p (dropFile pkg.toUInt32.toUInt64 path f)) statement = true

theorem dbFileAdd_returns {misread : Misread} {c' : Conn}
    (ran : dbFileAdd pkg path type owner grp size offset ctime misread c = some (0, c')) :
    ∃ third ninth, misread.third type = some third ∧ misread.ninth = some ninth ∧
      c' = (dbQuery insertFileFmt (insertFileArgs pkg path owner grp size offset ctime third ninth misread.tenth) .done
        (dbFileRemove pkg path .done c)).2 := by
  rw [dbFileAdd] at ran
  obtain ⟨third, readThird, ran⟩ := Option.bind_eq_some_iff.mp ran
  obtain ⟨ninth, readNinth, ran⟩ := Option.bind_eq_some_iff.mp ran
  simp only [Option.some.injEq, Prod.mk.injEq, true_and] at ran
  exact ⟨third, ninth, readThird, readNinth, ran.symm⟩

theorem dbFileAdd_eq {misread : Misread} {third ninth : List Char} (readThird : misread.third type = some third)
    (readNinth : misread.ninth = some ninth) :
    dbFileAdd pkg path type owner grp size offset ctime misread c = some (0,
      (dbQuery insertFileFmt (insertFileArgs pkg path owner grp size offset ctime third ninth misread.tenth) .done
        (dbFileRemove pkg path .done c)).2) := by
  simp only [dbFileAdd, readThird, readNinth, bind, Option.bind_some]
  rfl

/-- A path that fits is removed first, and only a rollback can bring back what was asked for. -/
theorem addsFile_of_fits (tables : Tables c.view p f) (plain : '\'' ∉ path)
    (fits : Fits pkg.toUInt32.toUInt64 path) (misread : Misread) :
    AddsFile pkg path type owner grp size offset ctime misread c f ↔
      RollsBack pkg path type owner grp size offset ctime misread c p f ∧
        ∃ f₀, c.committed "files".toList = some f₀ ∧ StoresFile pkg path type owner grp size offset ctime f f₀ := by
  have removed : dbFileRemove pkg path .done c =
      c.setView (write c.view p (dropFile pkg.toUInt32.toUInt64 path f)) := by
    rw [dbFileRemove, deleteFile_spec tables plain _ fits]
  have dropped : Tables (c.setView (write c.view p (dropFile pkg.toUInt32.toUInt64 path f))).view p
      (dropFile pkg.toUInt32.toUInt64 path f) := by
    rw [view_setView]
    exact tables.write rfl rfl
  constructor
  · rintro ⟨c', f', ran, files, stores⟩
    obtain ⟨third, ninth, readThird, readNinth, same⟩ := dbFileAdd_returns ran
    rw [same, removed] at files
    rcases insertFile_spec dropped pkg.toUInt32.toUInt64 path _ with
      refused | ⟨row, seq, unsized, added⟩ | ⟨statement, prepared, full⟩
    · rw [insertFileArgs, refused, dropped.files] at files
      cases files
      exact absurd stores (not_stores_of_dropped (fun _ => .null) rfl (.inl rfl))
    · rw [insertFileArgs, added, view_setView, write_files] at files
      cases files
      exact absurd stores (not_stores_of_dropped row unsized (.inr rfl))
    · rw [insertFileArgs, dbQuery_exhausted prepared full, view_cancel, committed_setView] at files
      rw [view_setView] at full
      split at files
      · next opened => exact ⟨⟨opened, third, ninth, statement, readThird, readNinth, prepared, full⟩, f', files, stores⟩
      · rw [write_files] at files
        cases files
        exact absurd stores (not_stores_of_dropped (fun _ => .null) rfl (.inl rfl))
  · rintro ⟨⟨opened, third, ninth, statement, readThird, readNinth, prepared, full⟩, f₀, files, stores⟩
    refine ⟨_, f₀, dbFileAdd_eq readThird readNinth, ?_, stores⟩
    rw [removed, dbQuery_exhausted prepared (by rw [view_setView]; exact full), view_cancel, committed_setView,
      if_pos opened, files]

/-- The row that was asked for is there exactly if it was there before, its path is so long that neither statement can
be prepared, and the texts of the conversions without an argument could be read at all; or if those texts make a
statement that ends the transaction, and the row was there before that began. -/
theorem addsFile_iff (tables : Tables c.view p f) (plain : '\'' ∉ path) (misread : Misread) :
    AddsFile pkg path type owner grp size offset ctime misread c f ↔
      ((misread.third type).isSome ∧ misread.ninth.isSome ∧ ¬Fits pkg.toUInt32.toUInt64 path ∧
        StoresFile pkg path type owner grp size offset ctime f f) ∨
      (Fits pkg.toUInt32.toUInt64 path ∧ RollsBack pkg path type owner grp size offset ctime misread c p f ∧
        ∃ f₀, c.committed "files".toList = some f₀ ∧
          StoresFile pkg path type owner grp size offset ctime f f₀) := by
  by_cases fits : Fits pkg.toUInt32.toUInt64 path
  · rw [addsFile_of_fits tables plain fits misread, and_iff_right fits]
    refine (or_iff_right ?_).symm
    exact fun condition => condition.2.2.1 fits
  · rw [or_iff_left (fun condition => fits condition.1)]
    have unchanged : dbFileRemove pkg path .done c = c := by
      rw [dbFileRemove, dbQuery_refused (refused_of_not_fits plain fits []).1]
    constructor
    · rintro ⟨c', f', ran, files, stores⟩
      obtain ⟨third, ninth, readThird, readNinth, same⟩ := dbFileAdd_returns ran
      rw [same, unchanged, insertFileArgs, dbQuery_refused (refused_of_not_fits plain fits _).2, tables.files] at files
      cases files
      exact ⟨Option.isSome_of_eq_some readThird, Option.isSome_of_eq_some readNinth, fits, stores⟩
    · rintro ⟨readThird, readNinth, -, stores⟩
      obtain ⟨third, readThird⟩ := Option.isSome_iff_exists.mp readThird
      obtain ⟨ninth, readNinth⟩ := Option.isSome_iff_exists.mp readNinth
      refine ⟨c, f, ?_, tables.files, stores⟩
      rw [dbFileAdd_eq readThird readNinth, unchanged, insertFileArgs,
        dbQuery_refused (refused_of_not_fits plain fits _).2]

end Add

/-- A path of 9000 characters, and a table that has it already. -/
def longPath : List Char := List.replicate 9000 'a'

def longRow : Row := fun name =>
  if name = "path".toList then .text longPath else if name = "type".toList then .text ['f'] else .int 1

def longFiles : Table := { columns := filesColumns, rows := [longRow], seq := 1 }

/-- The character is read as a string, and so is what comes last. -/
def readable : Misread where
  third type := some [type]
  ninth := some []
  tenth := 0

theorem longFiles_stores : StoresFile 1 longPath 'f' 1 1 1 1 1 longFiles longFiles where
  row := by
    refine ⟨longRow, ?_, by decide, by decide, by decide, by decide, by decide, by decide⟩
    have named : hasPath longPath longRow = true := decide_eq_true (if_pos rfl)
    have numbered : inPackage (1 : Int32).toUInt32.toUInt64 longRow = true := by decide
    simp [longFiles, isFile, named, numbered]
  others := rfl

/-- A connection to a database with a table of files, and no packages. -/
def filesConn (f : Table) : Conn := { committed := write (fun _ => none) initialPackages f }

theorem filesConn_tables {f : Table} (columns : f.columns = filesColumns) :
    Tables (filesConn f).view initialPackages f :=
  tables_write _ rfl columns

theorem addsFile_long : AddsFile 1 longPath 'f' 1 1 1 1 1 readable (filesConn longFiles) longFiles := by
  have plain : '\'' ∉ longPath := fun member => absurd (List.eq_of_mem_replicate member) (by decide)
  refine (addsFile_iff (filesConn_tables rfl) plain readable).mpr (.inl ⟨rfl, rfl, ?_, longFiles_stores⟩)
  unfold Fits
  rw [longPath, List.length_replicate]
  unfold sqlBufsize
  omega

/-- A file of ten bytes is added to a new database, and every text can be read. -/
theorem addsFile_not : ¬AddsFile 1 "/a".toList 'f' 0 0 10 0 0 readable (filesConn initialFiles) initialFiles := by
  have fits : Fits (1 : Int32).toUInt32.toUInt64 "/a".toList := fits_of_short (by decide) _
  rw [addsFile_of_fits (filesConn_tables rfl) (by decide) fits readable]
  rintro ⟨⟨opened, -⟩, -⟩
  exact Bool.noConfusion opened

end FsPkg.Db
