import M65Tool.Source.Makemake

/-!
# The text of the generated makefile

Source: scripts/makemake.py:376-439. A module.mk is appended to the text of its module and
project.mk to the text of the whole. The file that the text replaces is kept as
Makefile.am~; a run that fails leaves both files as they are.
-/
namespace M65Tool.Source.Makemake

/-- The fragments that are read besides the modules. -/
structure Fragments where
  /-- the text of the module.mk in a source directory, if there is one -/
  moduleMk : String → Option String
  projectMk : Option String

def noFragments : Fragments := ⟨fun _ => none, none⟩

def renderModuleText (fragments : Fragments) (mod : Module) : Except PyError String := do
  let parts ← renderModule mod
  pure (Makefile.joinParts (parts.map Part.toText ++
    (fragments.moduleMk mod.sourceDir).toList) ++ "\n")

def renderModuleTexts (fragments : Fragments) : List Module → Except PyError (List String)
  | [] => pure []
  | mod :: rest => do
    let text ← renderModuleText fragments mod
    let others ← renderModuleTexts fragments rest
    pure (text :: others)

def renderMakefile (fragments : Fragments) (mods : List Module) : Except PyError String := do
  let texts ← renderModuleTexts fragments (sortedModules mods)
  pure (Makefile.joinParts ([joined "" (makefilePreamble.map Part.toText)] ++ texts ++
    [joined "" (makefilePostable.map Part.toText)] ++ fragments.projectMk.toList))

/-- Makefile.am and Makefile.am~. -/
structure Outputs where
  makefile : Option String
  backup : Option String
  deriving DecidableEq, Repr

inductive Exit where
  | fileError (error : FileError)
  | uncaught (error : PyError)
  | done
  deriving DecidableEq, Repr

/-- `os.remove`, `os.rename` and the writing. -/
def Outputs.write (outputs : Outputs) (text : String) : Outputs :=
  ⟨some text, outputs.makefile.or outputs.backup⟩

def main (tree : Tree) (fragments : Fragments) (outputs : Outputs) : Exit × Outputs :=
  match acceptedModules tree with
  | .error error => (.fileError error, outputs)
  | .ok mods =>
    match renderMakefile fragments mods with
    | .error error => (.uncaught error, outputs)
    | .ok text => (.done, outputs.write text)

end M65Tool.Source.Makemake
