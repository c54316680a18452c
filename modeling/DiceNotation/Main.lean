import DiceNotation.Config.File
import DiceNotation.Histogram
import DiceNotation.LineAnswers

/-!
# The command line

`dice sample EXPRESSION [SAMPLES]` prints a histogram. Any other command line answers the lines of standard input; its
first argument, or else the variable `ROLL_CONFIG`, names the settings file.
-/

namespace DiceNotation

def randomWord : IO UInt64 := do
  return Xoshiro.wordOfBytes (← IO.getRandomBytes 8).data.toList

/-- What is at a path; whatever cannot be read counts as missing. -/
def readEntry (path : String) : IO Settings.Entry := do
  try
    return .file (← IO.FS.readBinFile path).data.toList
  catch _ => return .missing

def loadSettings (path : String) : IO Settings := do
  let before ← readEntry path
  let (settings, after) := Settings.load before
  if let .file content := after then
    if after ≠ before then
      try IO.FS.writeBinFile path ⟨content.toArray⟩ catch _ => pure ()
  return settings

def sampleCommand (args : List String) : IO UInt32 := do
  let seed ← randomWord
  let report := Histogram.run args fun i => Xoshiro.ofSeed (seed + i.toUInt64)
  report.output.forM IO.println
  report.errors.forM IO.eprintln
  return report.code

def answerCommand (args : List String) : IO UInt32 := do
  let settings ← match LineAnswers.settingsPath? args (← IO.getEnv "ROLL_CONFIG") with
    | some path => loadSettings path
    | none => pure {}
  let input ← (← IO.getStdin).readBinToEnd
  (LineAnswers.answers settings (Service.masterOfSeed (← randomWord)) input.data.toList).forM IO.println
  return 0

end DiceNotation

def main (args : List String) : IO UInt32 :=
  match args with
  | "sample" :: rest => DiceNotation.sampleCommand rest
  | _ => DiceNotation.answerCommand args
