import LinearCalculus.Checker.Program

namespace LinearCalculus.Checker

partial def readToEnd (stream : IO.FS.Stream) (front : ByteArray) : IO ByteArray := do
  let next ← stream.read 65536
  if next.isEmpty then return front else readToEnd stream (front ++ next)

def readFile (name : String) : IO (Option ByteArray) := do
  try
    return some (← IO.FS.readBinFile name)
  catch _ => return none

def gather (arguments : List String) : IO Inputs := do
  let names := arguments.filter (!namesStandard ·)
  let contents ← names.mapM fun name => do return (name, ← readFile name)
  let standard ← if arguments.any namesStandard then readToEnd (← IO.getStdin) .empty else pure .empty
  return ⟨fun name => (contents.lookup name).join, standard⟩

end LinearCalculus.Checker

def main (arguments : List String) : IO UInt32 := do
  let names := (LinearCalculus.Checker.Options.parse arguments).toOption.elim [] (·.files)
  let inputs ← LinearCalculus.Checker.gather names
  let (outcome, lines) := LinearCalculus.Checker.run arguments inputs
  for line in lines do
    IO.println line
  return outcome.code.toUInt32
