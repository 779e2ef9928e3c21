import PropertyFile.CommandLine.Run

open PropertyFile CommandLine

def readFile? (path : String) : IO (Option (List UInt8)) := do
  try return some (← IO.FS.readBinFile path).toList
  catch _ => return none

def isFolder (path : String) : IO Bool := do
  try
    discard (IO.FS.realPath (path ++ "/."))
    return true
  catch _ => return false

def pathOf (place : List String) : String :=
  match place with
  | [] => "."
  | "/" :: rest => "/" ++ "/".intercalate rest
  | rest => "/".intercalate rest

def observe (s : Storage) (path : String) : IO Storage := do
  let names := Storage.names path
  let mut s := s
  for n in List.range names.length do
    if let .ok place := s.locate path (names.take (n + 1)) then
      if ← isFolder (pathOf place) then s := s.put place .folder
      else if let some bytes ← readFile? (pathOf place) then s := s.put place (.file bytes)
  return s

def writeChanges (before after : Storage) : IO Unit := do
  for (place, node) in after.nodes do
    if let .file bytes := node then
      if before.node? place ≠ some node then
        IO.FS.writeBinFile (pathOf place) ⟨bytes.toArray⟩

def main (args : List String) : IO UInt32 := do
  let paths := match command args with
    | .ok c => c.paths
    | .error _ => []
  let before ← paths.foldlM observe {}
  let outcome := program args before
  IO.print outcome.output
  outcome.errors.forM IO.eprintln
  writeChanges before outcome.storage
  return UInt32.ofNat outcome.exit
