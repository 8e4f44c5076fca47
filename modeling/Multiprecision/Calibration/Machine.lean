/-!
# Multiprecision.Calibration.Machine

What measured thresholds depend on: the model of the processor, and the
number of its cores.
-/

namespace Multiprecision.Calibration

/-- What thresholds depend on. -/
structure Machine where
  /-- The processor's model, empty if it is not known. -/
  model : String := ""
  cores : Nat := 1
deriving DecidableEq, Repr, Inhabited

namespace Machine

/-- A text that tells machines apart. -/
def fingerprint (m : Machine) : String :=
  let cores := "cores=" ++ toString m.cores
  if m.model.isEmpty then cores else m.model ++ ";" ++ cores

/-- The key and the value of a line of a listing. -/
def entry (line : String) : String × String :=
  match line.splitOn ":" with
  | [] => ("", "")
  | key :: rest => (key.trimAscii.toString, (":".intercalate rest).trimAscii.toString)

/-- The machine that a listing of its processors describes: a block of
lines with a key, a colon and a value for each of them. -/
def ofListing (text : String) : Machine :=
  let entries := (text.splitOn "\n").map entry
  { model := (List.lookup "model name" entries).getD ""
    cores := max 1 (entries.countP (·.1 == "processor")) }

end Machine

end Multiprecision.Calibration
