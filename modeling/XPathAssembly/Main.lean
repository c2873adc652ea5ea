import XPathAssembly.CommandLine.Program

/-!
# Running the command

The command with the words that it is called with: it looks up its file, writes what its ending
says, and passes on the code.
-/

namespace XPathAssembly

namespace Program

/-- What comes of following a path in the file system.  A folder is what can be opened but not
read; the name of what cannot be opened comes with the reason. -/
def followPath (p : Path) : IO Lookup := do
  if p.isLong then return .long
  try
    let content ← IO.FS.readBinFile (String.ofList p.shown)
    return .found (.file content.toList)
  catch
    | .inappropriateType none .. => return .found (.folder [])
    | .invalidArgument .. => return .long
    | _ => return .nothing

def run (words : List Text) : IO UInt32 := do
  let lookup ← match read command.name words with
    | .ok (.chain request) => followPath request.path
    | _ => pure .nothing
  match command.call (fun _ => lookup) words with
  | .ok ending =>
    IO.print (String.ofList ending.out)
    IO.eprint (String.ofList ending.err)
    return ((ending.code.getD 0).toNat).toUInt32
  | .error halt =>
    IO.eprintln (String.ofList (halt.message?.getD []))
    return 1

end Program

end XPathAssembly

def main (line : List String) : IO UInt32 :=
  XPathAssembly.Program.run (line.map String.toList)
