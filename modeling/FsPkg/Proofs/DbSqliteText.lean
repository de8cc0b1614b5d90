import FsPkg.Model.DbSqlite

/-! # The texts of the database layer, read back

For a path without quotes each format prints a text that fits the buffer and reads as the intended
statement: first which text is written, then its tokens, then the statement. Nothing later looks at
the texts again.
-/

namespace FsPkg.Db

open Sql

/-- `PATH_MAX`. -/
def pathMax : ℕ := 4096

theorem length_toDigits_le (n : UInt64) : (Nat.toDigits 10 n.toNat).length ≤ 20 := by
  rw [Nat.length_toDigits_le_iff (by decide) (by decide)]
  exact n.toNat_lt.trans (by decide)

theorem quote_not_mem_toDigits (n : ℕ) : '\'' ∉ Nat.toDigits 10 n := by
  intro member
  have digit := Nat.isDigit_of_mem_toDigits (by decide) (by decide) member
  exact absurd digit (by decide)

/-! ## Reading the texts -/

section Texts

variable {path : List Char}

/-- The tokens of each statement around the path. -/
def deleteFilesTokens (path : List Char) : List Token :=
  [.word "delete".toList, .word "from".toList, .word "files".toList, .word "where".toList,
    .word "package".toList, .word "in".toList, .sym '(', .word "select".toList, .word "id".toList,
    .word "from".toList, .word "packages".toList, .word "where".toList, .word "path".toList, .sym '=',
    .text path, .sym ')']

def deletePackagesTokens (path : List Char) : List Token :=
  [.word "delete".toList, .word "from".toList, .word "packages".toList, .word "where".toList,
    .word "path".toList, .sym '=', .text path]

def insertPackageTokens (path : List Char) (mtime : UInt64) : List Token :=
  [.word "insert".toList, .word "into".toList, .word "packages".toList, .sym '(', .word "path".toList,
    .sym ',', .word "version".toList, .sym ')', .word "values".toList, .sym '(', .text path, .sym ',',
    .number mtime.toNat, .sym ')']

def selectPackageTokens (path : List Char) (mtime : UInt64) : List Token :=
  [.word "select".toList, .word "id".toList, .word "from".toList, .word "packages".toList,
    .word "where".toList, .word "path".toList, .sym '=', .text path, .word "and".toList,
    .word "version".toList, .sym '=', .number mtime.toNat]

def deleteFileTokens (pkg : UInt64) (path : List Char) : List Token :=
  [.word "delete".toList, .word "from".toList, .word "files".toList, .word "where".toList,
    .word "package".toList, .sym '=', .text (Nat.toDigits 10 pkg.toNat), .word "and".toList,
    .word "path".toList, .sym '=', .text path]

theorem vformat_plain {fmt : List Char} (plain : '%' ∉ fmt) (rest : List Char) (args : List Arg) :
    vformat (fmt ++ rest) args = fmt ++ vformat rest args := by
  induction fmt with
  | nil => rfl
  | cons c tail ih =>
    obtain ⟨different, plain⟩ := not_or.mp (mt List.mem_cons.mpr plain)
    rw [List.cons_append, vformat, ih plain, List.cons_append]
    · rintro _ _ _ _ rfl
      exact absurd rfl different
    · rintro _ _ _ _ rfl
      exact absurd rfl different
    · rintro _ _ _ _ rfl
      exact absurd rfl different

theorem vformat_str (rest s : List Char) (args : List Arg) :
    vformat ('%' :: 's' :: rest) (.str s :: args) = s ++ vformat rest args := by
  rw [vformat]

theorem vformat_ulong (rest : List Char) (n : UInt64) (args : List Arg) :
    vformat ('%' :: 'l' :: 'u' :: rest) (.ulong n :: args) = Nat.toDigits 10 n.toNat ++ vformat rest args := by
  rw [vformat]

theorem vformat_int (rest : List Char) (n : Int32) (args : List Arg) :
    vformat ('%' :: 'd' :: rest) (.int n :: args) = printInt n ++ vformat rest args := by
  rw [vformat]

theorem length_printInt_le (n : Int32) : (printInt n).length ≤ 11 := by
  have low := n.le_toInt
  have high := n.toInt_lt
  have digits : (Nat.toDigits 10 n.toInt.natAbs).length ≤ 10 := by
    rw [Nat.length_toDigits_le_iff (by decide) (by decide)]
    omega
  unfold printInt
  split
  · rw [List.length_cons]
    omega
  · omega

theorem vformat_end {fmt : List Char} (plain : '%' ∉ fmt) (args : List Arg) : vformat fmt args = fmt := by
  have printed := vformat_plain plain [] args
  rwa [List.append_nil, vformat, List.append_nil] at printed

/-- A text that fits is written whole. -/
theorem vsnprintf_fits {fmt : List Char} {args : List Arg} (fits : (vformat fmt args).length < sqlBufsize) :
    vsnprintf sqlBufsize fmt args = vformat fmt args :=
  List.take_of_length_le (Nat.le_sub_one_of_lt fits)

/-- Formats with one `%s`, one `%s` before one `%lu`, and the other way round. -/
theorem text_str {fmt before after : List Char} (split : fmt = before ++ '%' :: 's' :: after)
    (plain : '%' ∉ before ∧ '%' ∉ after) (fits : before.length + (path.length + after.length) < sqlBufsize) :
    vsnprintf sqlBufsize fmt [.str path] = before ++ (path ++ after) := by
  have printed : vformat fmt [.str path] = before ++ (path ++ after) := by
    rw [split, vformat_plain plain.1, vformat_str, vformat_end plain.2]
  rw [vsnprintf_fits, printed]
  rw [printed, List.length_append, List.length_append]
  exact fits

theorem text_str_ulong {fmt before middle after : List Char} {n : UInt64}
    (split : fmt = before ++ '%' :: 's' :: (middle ++ '%' :: 'l' :: 'u' :: after))
    (plain : '%' ∉ before ∧ '%' ∉ middle ∧ '%' ∉ after)
    (fits : before.length + (path.length + (middle.length + (20 + after.length))) < sqlBufsize) :
    vsnprintf sqlBufsize fmt [.str path, .ulong n] =
      before ++ (path ++ (middle ++ (Nat.toDigits 10 n.toNat ++ after))) := by
  have printed : vformat fmt [.str path, .ulong n] =
      before ++ (path ++ (middle ++ (Nat.toDigits 10 n.toNat ++ after))) := by
    rw [split, vformat_plain plain.1, vformat_str, vformat_plain plain.2.1, vformat_ulong,
      vformat_end plain.2.2]
  rw [vsnprintf_fits, printed]
  have digits := length_toDigits_le n
  rw [printed]
  simp only [List.length_append]
  omega

/-- The pieces of each format. `String.toList_ofList` turns a literal into its characters. -/
theorem text_deleteFiles (short : path.length < pathMax) :
    vsnprintf sqlBufsize deleteFilesFmt.toList [.str path] =
      "DELETE FROM files WHERE package IN (SELECT id FROM packages WHERE path = '".toList ++
        (path ++ "');".toList) := by
  unfold pathMax at short
  apply text_str
  · unfold deleteFilesFmt
    rw [String.toList_ofList, String.toList_ofList, String.toList_ofList]
    rfl
  · rw [String.toList_ofList, String.toList_ofList]
    decide
  · rw [String.toList_ofList, String.toList_ofList]
    simp only [List.length_cons, List.length_nil, sqlBufsize]
    omega

theorem text_deletePackages (short : path.length < pathMax) :
    vsnprintf sqlBufsize deletePackagesFmt.toList [.str path] =
      "DELETE FROM packages WHERE path = '".toList ++ (path ++ "';".toList) := by
  unfold pathMax at short
  apply text_str
  · unfold deletePackagesFmt
    rw [String.toList_ofList, String.toList_ofList, String.toList_ofList]
    rfl
  · rw [String.toList_ofList, String.toList_ofList]
    decide
  · rw [String.toList_ofList, String.toList_ofList]
    simp only [List.length_cons, List.length_nil, sqlBufsize]
    omega

theorem text_insertPackage (short : path.length < pathMax) (mtime : UInt64) :
    vsnprintf sqlBufsize insertPackageFmt.toList [.str path, .ulong mtime] =
      "INSERT INTO packages (path, version) VALUES ('".toList ++
        (path ++ ("', ".toList ++ (Nat.toDigits 10 mtime.toNat ++ ");".toList))) := by
  unfold pathMax at short
  apply text_str_ulong
  · unfold insertPackageFmt
    rw [String.toList_ofList, String.toList_ofList, String.toList_ofList, String.toList_ofList]
    rfl
  · rw [String.toList_ofList, String.toList_ofList, String.toList_ofList]
    decide
  · rw [String.toList_ofList, String.toList_ofList, String.toList_ofList]
    simp only [List.length_cons, List.length_nil, sqlBufsize]
    omega

theorem text_selectPackage (short : path.length < pathMax) (mtime : UInt64) :
    vsnprintf sqlBufsize selectPackageFmt.toList [.str path, .ulong mtime] =
      "SELECT id FROM packages WHERE path = '".toList ++
        (path ++ ("' AND version = ".toList ++ (Nat.toDigits 10 mtime.toNat ++ ";".toList))) := by
  unfold pathMax at short
  apply text_str_ulong
  · unfold selectPackageFmt
    rw [String.toList_ofList, String.toList_ofList, String.toList_ofList, String.toList_ofList]
    rfl
  · rw [String.toList_ofList, String.toList_ofList, String.toList_ofList]
    decide
  · rw [String.toList_ofList, String.toList_ofList, String.toList_ofList]
    simp only [List.length_cons, List.length_nil, sqlBufsize]
    omega

/-- The quote behind the path of `db_file_remove` is still in the buffer. -/
def Fits (pkg : UInt64) (path : List Char) : Prop :=
  50 + (Nat.toDigits 10 pkg.toNat).length + path.length < sqlBufsize

theorem fits_of_short (short : path.length < pathMax) (pkg : UInt64) : Fits pkg path := by
  have digits := length_toDigits_le pkg
  unfold pathMax at short
  unfold Fits sqlBufsize
  omega

/-- The text of `db_file_remove` in front of the path. -/
def deleteFileText (pkg : UInt64) : List Char :=
  "DELETE FROM files WHERE package = '".toList ++ (Nat.toDigits 10 pkg.toNat ++ "' AND path = '".toList)

theorem deleteFileText_eq (pkg : UInt64) : deleteFileText pkg = "DELETE FROM files WHERE package = '".toList ++
    (Nat.toDigits 10 pkg.toNat ++ "' AND path = '".toList) := rfl

theorem length_deleteFileText (pkg : UInt64) :
    (deleteFileText pkg).length = 49 + (Nat.toDigits 10 pkg.toNat).length := by
  have before : "DELETE FROM files WHERE package = '".toList.length = 35 := by
    rw [String.toList_ofList]
    rfl
  have middle : "' AND path = '".toList.length = 14 := by
    rw [String.toList_ofList]
    rfl
  rw [deleteFileText_eq, List.length_append, List.length_append, before, middle]
  omega

theorem vformat_deleteFile (pkg : UInt64) (path : List Char) :
    vformat deleteFileFmt.toList [.ulong pkg, .str path] = deleteFileText pkg ++ (path ++ ['\'', ';']) := by
  have split : deleteFileFmt.toList = "DELETE FROM files WHERE package = '".toList ++
      '%' :: 'l' :: 'u' :: ("' AND path = '".toList ++ '%' :: 's' :: ['\'', ';']) := by
    unfold deleteFileFmt
    rw [String.toList_ofList, String.toList_ofList, String.toList_ofList]
    rfl
  have before : '%' ∉ "DELETE FROM files WHERE package = '".toList := by
    rw [String.toList_ofList]
    decide
  have middle : '%' ∉ "' AND path = '".toList := by
    rw [String.toList_ofList]
    decide
  rw [split, vformat_plain before, vformat_ulong, vformat_plain middle, vformat_str, vformat_end (by decide),
    deleteFileText_eq, List.append_assoc, List.append_assoc]

/-! The tokenizer has read everything in front of the path and is inside the literal. -/

theorem reads_deleteFiles : Lexer.run {}
    "DELETE FROM files WHERE package IN (SELECT id FROM packages WHERE path = '".toList =
      some ⟨((deleteFilesTokens []).take 14).reverse, .literal []⟩ := by
  rw [String.toList_ofList]
  decide +kernel

theorem reads_deletePackages : Lexer.run {} "DELETE FROM packages WHERE path = '".toList =
    some ⟨((deletePackagesTokens []).take 6).reverse, .literal []⟩ := by
  rw [String.toList_ofList]
  decide +kernel

theorem reads_insertPackage : Lexer.run {} "INSERT INTO packages (path, version) VALUES ('".toList =
    some ⟨((insertPackageTokens [] 0).take 10).reverse, .literal []⟩ := by
  rw [String.toList_ofList]
  decide +kernel

theorem reads_selectPackage : Lexer.run {} "SELECT id FROM packages WHERE path = '".toList =
    some ⟨((selectPackageTokens [] 0).take 7).reverse, .literal []⟩ := by
  rw [String.toList_ofList]
  decide +kernel

theorem reads_deleteFile (pkg : UInt64) : Lexer.run {} (deleteFileText pkg) =
    some ⟨((deleteFileTokens pkg []).take 10).reverse, .literal []⟩ := by
  have first : Lexer.run {} "DELETE FROM files WHERE package = '".toList =
      some ⟨((deleteFileTokens 0 []).take 6).reverse, .literal []⟩ := by
    rw [String.toList_ofList]
    decide +kernel
  rw [deleteFileText_eq, Lexer.run_append, first, Option.bind_some, Lexer.run_append,
    Lexer.run_literal (quote_not_mem_toDigits _), Option.bind_some, List.append_nil]
  have second (acc : List Char) (tokens : List Token) :
      Lexer.run ⟨tokens, .literal acc⟩ "' AND path = '".toList =
        some ⟨.sym '=' :: .word "path".toList :: .word "and".toList :: Lexer.textToken acc :: tokens,
          .literal []⟩ := by
    rw [String.toList_ofList]
    rfl
  rw [second, Lexer.textToken, List.reverse_reverse]
  rfl

/-! The whole texts. -/

theorem lex_deleteFiles (plain : '\'' ∉ path) (short : path.length < pathMax) :
    lex (vsnprintf sqlBufsize deleteFilesFmt.toList [.str path]) = some (deleteFilesTokens path) := by
  have after : "');".toList = ['\'', ')', ';'] := String.toList_ofList
  rw [text_deleteFiles short, after]
  exact lex_splice reads_deleteFiles plain (by decide) rfl

theorem lex_deletePackages (plain : '\'' ∉ path) (short : path.length < pathMax) :
    lex (vsnprintf sqlBufsize deletePackagesFmt.toList [.str path]) = some (deletePackagesTokens path) := by
  have after : "';".toList = ['\'', ';'] := String.toList_ofList
  rw [text_deletePackages short, after]
  exact lex_splice reads_deletePackages plain (by decide) rfl

theorem lex_insertPackage (plain : '\'' ∉ path) (short : path.length < pathMax) (mtime : UInt64) :
    lex (vsnprintf sqlBufsize insertPackageFmt.toList [.str path, .ulong mtime]) =
      some (insertPackageTokens path mtime) := by
  have middle : "', ".toList = ['\'', ',', ' '] := String.toList_ofList
  have after : ");".toList = [')', ';'] := String.toList_ofList
  rw [text_insertPackage short, middle, after]
  apply lex_splice reads_insertPackage plain (by decide)
  obtain ⟨acc, digits, value⟩ := Lexer.run_toDigits
    (.sym ',' :: .text path :: ((insertPackageTokens [] 0).take 10).reverse) mtime.toNat
  change Lexer.run ⟨.sym ',' :: .text path :: ((insertPackageTokens [] 0).take 10).reverse, .blank⟩
    (Nat.toDigits 10 mtime.toNat ++ [')', ';']) = _
  rw [Lexer.run_append, digits, Option.bind_some, Lexer.run_cons, Lexer.step_number,
    if_neg (by decide), if_neg (by decide), value]
  rfl

theorem lex_selectPackage (plain : '\'' ∉ path) (short : path.length < pathMax) (mtime : UInt64) :
    lex (vsnprintf sqlBufsize selectPackageFmt.toList [.str path, .ulong mtime]) =
      some (selectPackageTokens path mtime) := by
  have middle : "' AND version = ".toList = '\'' :: ' ' :: "AND version = ".toList := by
    rw [String.toList_ofList, String.toList_ofList]
  have after : ";".toList = [';'] := String.toList_ofList
  rw [text_selectPackage short, middle, after, List.cons_append, List.cons_append]
  apply lex_splice reads_selectPackage plain (by decide)
  have words : Lexer.run (Lexer.start (.text path :: ((selectPackageTokens [] 0).take 7).reverse) ' ')
      "AND version = ".toList = some ⟨.sym '=' :: .word "version".toList :: .word "and".toList ::
        .text path :: ((selectPackageTokens [] 0).take 7).reverse, .blank⟩ := by
    rw [String.toList_ofList]
    rfl
  obtain ⟨acc, digits, value⟩ := Lexer.run_toDigits (.sym '=' :: .word "version".toList ::
    .word "and".toList :: .text path :: ((selectPackageTokens [] 0).take 7).reverse) mtime.toNat
  rw [Lexer.run_append, words, Option.bind_some, Lexer.run_append, digits, Option.bind_some,
    Lexer.run_cons, Lexer.step_number, if_neg (by decide), if_neg (by decide), value]
  rfl

/-- The semicolon behind the quote may be cut off. -/
theorem lex_deleteFile (plain : '\'' ∉ path) (pkg : UInt64) (fits : Fits pkg path) :
    lex (vsnprintf sqlBufsize deleteFileFmt.toList [.ulong pkg, .str path]) =
      some (deleteFileTokens pkg path) := by
  have length := length_deleteFileText pkg
  unfold Fits at fits
  rw [vsnprintf, vformat_deleteFile]
  by_cases whole : (deleteFileText pkg).length + path.length + 2 < sqlBufsize
  · rw [List.take_of_length_le]
    · exact lex_splice (reads_deleteFile pkg) plain (by decide) rfl
    · simp only [List.length_append, List.length_cons, List.length_nil]
      omega
  · have cut : (deleteFileText pkg ++ (path ++ ['\'', ';'])).take (sqlBufsize - 1) =
        deleteFileText pkg ++ (path ++ ['\'']) := by
      have split : deleteFileText pkg ++ (path ++ ['\'', ';']) =
          deleteFileText pkg ++ (path ++ ['\'']) ++ [';'] := by simp
      rw [split]
      apply List.take_left'
      simp only [List.length_append, List.length_cons, List.length_nil]
      omega
    rw [cut]
    exact lex_splice_end (reads_deleteFile pkg) plain

/-! The statements. -/

def pathIs (path : List Char) : Expr :=
  .eq (.column "path".toList) (.value (.text path))

def versionIs (version : UInt64) : Expr :=
  .eq (.column "version".toList) (.value (numeral version.toNat))

theorem prepare_deleteFiles (plain : '\'' ∉ path) (short : path.length < pathMax) :
    prepare (vsnprintf sqlBufsize deleteFilesFmt.toList [.str path]) = some (.delete "files".toList
      (.inSelect (.column "package".toList) "id".toList "packages".toList (pathIs path))) := by
  rw [prepare, lex_deleteFiles plain short]
  rfl

theorem prepare_deletePackages (plain : '\'' ∉ path) (short : path.length < pathMax) :
    prepare (vsnprintf sqlBufsize deletePackagesFmt.toList [.str path]) =
      some (.delete "packages".toList (pathIs path)) := by
  rw [prepare, lex_deletePackages plain short]
  rfl

theorem prepare_insertPackage (plain : '\'' ∉ path) (short : path.length < pathMax) (mtime : UInt64) :
    prepare (vsnprintf sqlBufsize insertPackageFmt.toList [.str path, .ulong mtime]) =
      some (.insert "packages".toList ["path".toList, "version".toList]
        [.text path, numeral mtime.toNat]) := by
  rw [prepare, lex_insertPackage plain short]
  rfl

theorem prepare_selectPackage (plain : '\'' ∉ path) (short : path.length < pathMax) (mtime : UInt64) :
    prepare (vsnprintf sqlBufsize selectPackageFmt.toList [.str path, .ulong mtime]) =
      some (.select (some ["id".toList]) "packages".toList (.and (pathIs path) (versionIs mtime))) := by
  rw [prepare, lex_selectPackage plain short]
  rfl

theorem prepare_deleteFile (plain : '\'' ∉ path) (pkg : UInt64) (fits : Fits pkg path) :
    prepare (vsnprintf sqlBufsize deleteFileFmt.toList [.ulong pkg, .str path]) =
      some (.delete "files".toList (.and (.eq (.column "package".toList)
        (.value (.text (Nat.toDigits 10 pkg.toNat)))) (pathIs path))) := by
  rw [prepare, lex_deleteFile plain pkg fits]
  rfl

end Texts

end FsPkg.Db
