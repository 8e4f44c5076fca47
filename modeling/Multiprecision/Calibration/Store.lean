import Multiprecision.Calibration.Profile.Json

/-!
# Multiprecision.Calibration.Store

Where profiles are kept.  There are two places: a file in the user's
configuration folder, if there is one, and behind it a dot file in the
working folder.  A profile is loaded from the first file that holds one, and
saved to the first place.

The store works over any files, given as the actions on them.
-/

namespace Multiprecision.Calibration

/-- Actions on files.  What fails gives the reason. -/
structure Files (m : Type → Type) where
  /-- There is a file or a folder of this path. -/
  exist : (path : String) → m Bool
  read : (path : String) → m (Except String String)
  write : (path text : String) → m (Except String Unit)
  /-- Makes a folder and those it lies in, where they are missing. -/
  makeFolder : (path : String) → m (Except String Unit)
  /-- Removes a file, and fails on a folder. -/
  remove : (path : String) → m (Except String Unit)

/-- The folders that a user's settings name. -/
structure Places where
  /-- The folder for settings; one without a name does not count. -/
  settings : Option String := none
  /-- The home folder. -/
  home : Option String := none
  /-- The working folder. -/
  working : String := "."
deriving DecidableEq, Repr, Inhabited

namespace Places

/-- A name inside a folder; the empty path is the folder that paths start
from. -/
def inside (folder name : String) : String :=
  if folder.isEmpty then name
  else if folder.endsWith "/" then folder ++ name
  else folder ++ "/" ++ name

/-- The folder for settings: the one that is named, or else the usual one in
the home folder. -/
def settingsFolder (p : Places) : Option String :=
  match p.settings.filter (!·.isEmpty) with
  | some folder => some folder
  | none => p.home.map (inside · ".config")

/-- The name of a profile's file. -/
def fileName : String := "mparith_calibration.json"

/-- The folder for profiles. -/
def profileFolder (p : Places) : Option String := p.settingsFolder.map (inside · "mparith")

/-- The file in the working folder. -/
def workingFile (p : Places) : String := inside p.working ("." ++ fileName)

/-- The files that may hold the profile, the first one first. -/
def candidates (p : Places) : List String :=
  (p.profileFolder.map (inside · fileName)).toList ++ [p.workingFile]

end Places

namespace Store

variable {m : Type → Type} [Monad m]

/-- An action on files as one that may fail. -/
def attempt {α : Type} (action : m (Except String α)) : ExceptT Failure m α := do
  match ← (action : m (Except String α)) with
  | .ok a => return a
  | .error reason => throw (.files reason)

/-- The profile in a file. -/
def loadFrom (files : Files m) (path : String) : ExceptT Failure m Profile := do
  liftM (Profile.ofText (← attempt (files.read path)))

/-- The first profile that one of these files holds. -/
def loadFirst (files : Files m) : List String → m (Option Profile)
  | [] => return none
  | path :: rest => do
    if ← files.exist path then
      match ← (loadFrom files path).run with
      | .ok p => return some p
      | .error _ => loadFirst files rest
    else loadFirst files rest

/-- The saved profile. -/
def load (files : Files m) (places : Places) : m (Option Profile) :=
  loadFirst files places.candidates

/-- The saved profile, if it is of use on a machine with the given
fingerprint.  One that is not hides those behind it. -/
def loadValid (files : Files m) (places : Places) (fingerprint : String) :
    m (Option Profile) := do
  match ← load files places with
  | some p => return (p.validate fingerprint).toOption
  | none => return none

/-- The saved profile if it is of use on the machine, or the default one. -/
def cached (files : Files m) (places : Places) (machine : Machine) : m Profile := do
  return (← loadValid files places machine.fingerprint).getD (.unmeasured machine)

/-- Saves a profile, and gives the file's path. -/
def save (files : Files m) (places : Places) (p : Profile) : ExceptT Failure m String := do
  let path ← match places.profileFolder with
    | some folder => do
      attempt (files.makeFolder folder)
      pure (Places.inside folder Places.fileName)
    | none => pure places.workingFile
  attempt (files.write path p.toText)
  return path

/-- Removes the first of these files that is there, and says whether one
was. -/
def deleteFirst (files : Files m) : List String → ExceptT Failure m Bool
  | [] => return false
  | path :: rest => do
    if ← files.exist path then
      attempt (files.remove path)
      return true
    else deleteFirst files rest

/-- Removes the saved profile, and says whether there was one. -/
def delete (files : Files m) (places : Places) : ExceptT Failure m Bool :=
  deleteFirst files places.candidates

end Store

end Multiprecision.Calibration
