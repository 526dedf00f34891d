import Mathlib.Data.Char
import Mathlib.Data.List.Lex
import Mathlib.Data.List.Nodup
import M65Tool.Lib.NormalPath
import M65Tool.Lib.Tally

/-!
# The cleaning script

Source: scripts/superclean.py:41-219. A path is a string; a directory of the tree
below the root directory is the list of names that lead to it. What git prints is a
parameter, by the directory it runs in. The removal changes what is left of the tree.
-/
namespace M65Tool.Source.Superclean
open Lib.PosixPath Lib.Tally

/-! ## The tree -/

/-- A file, by its directory and its name. -/
abbrev File := List Path × Path

/-- A directory tree without symbolic links: each directory with the names of its files,
in the order in which `os.walk` comes to them. -/
structure Tree where
  dirs : List (List Path × List Path)
  root : [] ∈ dirs.map Prod.fst
  parent : ∀ ds n, ds ++ [n] ∈ dirs.map Prod.fst → ds ∈ dirs.map Prod.fst
  nodup : (dirs.map Prod.fst).Nodup
  names : ∀ d ∈ dirs, ∀ n ∈ d.1, IsName n
  file_names : ∀ d ∈ dirs, ∀ f ∈ d.2, IsName f
  file_nodup : ∀ d ∈ dirs, d.2.Nodup
  file_apart : ∀ d ∈ dirs, ∀ f ∈ d.2, d.1 ++ [f] ∉ dirs.map Prod.fst

def Tree.paths (tree : Tree) : List (List Path) := tree.dirs.map Prod.fst

def Tree.files (tree : Tree) : List File := tree.dirs.flatMap fun d => d.2.map fun f => (d.1, f)

/-- Where the script runs, and the `--root-dir` it is given. -/
structure Place where
  cwd : Path
  cwd_abs : isabs cwd = true
  cwd_normal : normpath cwd = cwd
  rootDir : Option Path

/-- `root_dir or cwd`. -/
def orCwd (cwd : Path) (rootDir : Option Path) : Path :=
  match rootDir with
  | some p => if p = [] then cwd else p
  | none => cwd

namespace Place
variable (place : Place)

/-- The root directory as `get_untracked_files` spells it. -/
def absRoot : Path := abspath place.cwd (orCwd place.cwd place.rootDir)

/-- The root directory as `get_empty_directories` spells it. -/
def givenRoot : Path := place.rootDir.getD place.cwd

/-- The path names what lies along these names below the root directory. -/
def Names (p : Path) (names : List Path) : Prop :=
  resolve place.cwd p = resolve place.cwd place.givenRoot ++ names

instance (p : Path) (names : List Path) : Decidable (place.Names p names) :=
  inferInstanceAs (Decidable (_ = _))

end Place

/-! ## Untracked files -/

/-- `str.isspace` of a character. -/
def isSpace (c : Char) : Bool :=
  (9 ≤ c.toNat ∧ c.toNat ≤ 13) ∨ (28 ≤ c.toNat ∧ c.toNat ≤ 32) ∨ c.toNat = 0x85 ∨ c.toNat = 0xa0 ∨
    c.toNat = 0x1680 ∨ (0x2000 ≤ c.toNat ∧ c.toNat ≤ 0x200a) ∨ c.toNat = 0x2028 ∨
    c.toNat = 0x2029 ∨ c.toNat = 0x202f ∨ c.toNat = 0x205f ∨ c.toNat = 0x3000

/-- `p.strip()`. -/
def strip (p : Path) : Path := ((p.dropWhile isSpace).reverse.dropWhile isSpace).reverse

/-- The path of a submodule, from a line that `\s*path = (.*)` matches. -/
def submodulePath (line : Path) : Option Path :=
  let rest := line.dropWhile isSpace
  if "path = ".toList.isPrefixOf rest then some (rest.drop 7) else none

/-- What a directory answers with: `git ls-files` (its return code and its output, with and
without `--ignored`), the lines of .gitmodules, and the directories that they name. -/
inductive Repo where
  | missing
  | mk (lsFiles : Bool → Nat × Path) (gitmodules : Option (List Path)) (submodule : Path → Repo)

/-- An exception of `os.chdir`, or git's return code. -/
inductive Failure where
  | chdir
  | git (returncode : Nat)
  deriving DecidableEq, Repr

/-- superclean.py:41-97. -/
def getUntrackedFiles : Repo → Path → Option Path → Bool → Except Failure (List Path)
  | .missing, _, _, _ => throw .chdir
  | .mk lsFiles gitmodules submodule, cwd, rootDir, onlyIgnored => do
    let root := abspath cwd (orCwd cwd rootDir)
    let (returncode, stdout) := lsFiles onlyIgnored
    if returncode ≠ 0 then throw (.git returncode)
    let submodulePaths := (gitmodules.getD []).filterMap submodulePath
    let submodFiles ← submodulePaths.mapM fun p =>
      getUntrackedFiles (submodule p) root (some (join root p)) false
    let lines := (stdout.splitOn '\n').filter fun p => strip p ≠ []
    pure (submodFiles.flatten ++ lines.map fun p => join root (strip p))

/-! ## Empty directories -/

/-- The paths that a path's parts are counted under, from the first part on. -/
def partials (dparts : List Path) : List Path :=
  (List.range' 1 dparts.length).map fun i =>
    if 1 < i then joinAll (dparts.take i) else dparts.headD []

/-- `os.walk(root_dir)`; it has nothing to walk where the path is empty. -/
def walk (tree : Tree) (rootDir : Path) : List (Path × List Path) :=
  if rootDir = [] then [] else tree.dirs.map fun d => (below rootDir d.1, d.2)

/-- `dname == '.git' or '/.git/' in dname`. -/
def skipped (dname : Path) : Bool :=
  dname = ".git".toList ∨ "/.git/".toList <:+: dname

/-- superclean.py:126-136. -/
def countFiles (tree : Tree) (rootDir : Path) : Counts Path :=
  (walk tree rootDir).foldl (fun fcounts d =>
    if skipped d.1 then fcounts
    else addEach fcounts (partials (parts (d.1.drop rootDir.length))) d.2.length) []

/-- `os.path.exists`, below the root directory and for the directories it lies in. -/
def pathExists (place : Place) (tree : Tree) (p : Path) : Bool :=
  p ≠ [] && (tree.paths.any (fun ds => place.Names p ds) ||
    tree.files.any (fun f => place.Names p (f.1 ++ [f.2])) ||
    (resolve place.cwd p).isPrefixOf (resolve place.cwd place.givenRoot))

/-- The part of a directory's path that its deleted files are counted under. -/
def belowRoot (rootDir dname : Path) : Path :=
  if rootDir.isPrefixOf dname then dname.drop rootDir.length else dname

/-- superclean.py:138-151. -/
def discountDeleted (place : Place) (tree : Tree) (fcounts : Counts Path) (p : Path) :
    Counts Path :=
  if pathExists place tree (dirname p) then
    addEach fcounts (partials (parts (belowRoot place.givenRoot (dirname p)))) (-1)
  else fcounts

/-- superclean.py:100-157. -/
def getEmptyDirectories (place : Place) (tree : Tree) (assumeDeleted : Option (List Path)) :
    List Path :=
  let rootDir := place.givenRoot
  let fcounts := (assumeDeleted.getD []).foldl (discountDeleted place tree)
    (countFiles tree rootDir)
  let emptyDirs := (keys fcounts).filter fun p => get fcounts p = 0
  (emptyDirs.mergeSort fun p q => q ≤ p).map (join rootDir)

/-! ## Removal -/

/-- What is left of the tree. -/
structure Disk where
  dirs : List (List Path)
  files : List File

def Tree.disk (tree : Tree) : Disk := ⟨tree.paths, tree.files⟩

section Removal
variable (place : Place) (disk : Disk)

/-- `os.remove`, which raises an exception for what is not a file. -/
def osRemove (p : Path) : Option Disk := do
  let f ← disk.files.find? fun f => place.Names p (f.1 ++ [f.2]) && !endsSlash p
  some { disk with files := disk.files.erase f }

/-- `os.rmdir`, which raises one for what is not an empty directory. -/
def osRmdir (p : Path) : Option Disk := do
  let ds ← disk.dirs.find? fun ds => place.Names p ds
  if disk.files.any (fun f => f.1 = ds) || disk.dirs.any (fun es => es ≠ [] ∧ es.dropLast = ds)
  then none
  else some { disk with dirs := disk.dirs.erase ds }

/-- superclean.py:201-211, without `--dry-run`. -/
def removeAll (filesToDelete dirsToDelete : List Path) : Option Disk := do
  let disk ← filesToDelete.foldlM (osRemove place) disk
  dirsToDelete.foldlM (osRmdir place) disk

end Removal

/-! ## The script -/

/-- How a run of `main` ends; `raised` is an exception. -/
inductive Outcome where
  | error (msg : String)
  | listed (files dirs : List Path)
  | raised
  | removed (disk : Disk)

/-- superclean.py:182-221, where git can be found or not. -/
def main (place : Place) (tree : Tree) (repo : Repo) (gitFound dryRun : Bool) : Outcome :=
  if place.rootDir.getD [] = [] ∧ ¬ pathExists place tree ".git".toList then
    .error "Please run this from the project root directory, or specify --root-dir."
  else if ¬ gitFound then .error "Cannot find git. Is it on the command path?"
  else match getUntrackedFiles repo place.cwd place.rootDir true with
    | .error .chdir => .raised
    | .error (.git err) =>
      .error ("git ls-files returned an error code (" ++ toString err ++ "), aborting")
    | .ok filesToDelete =>
      let dirsToDelete := getEmptyDirectories place tree (some filesToDelete)
      if dryRun then .listed filesToDelete dirsToDelete
      else match removeAll place tree.disk filesToDelete dirsToDelete with
        | none => .raised
        | some disk => .removed disk

end M65Tool.Source.Superclean
