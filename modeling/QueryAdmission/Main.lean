import QueryAdmission.Service.Line
import QueryAdmission.Service.Start

/-! The program: starts the service from the environment and answers the requests on standard
input, one on a line. -/

open QueryAdmission

/-- Reads the file of settings. -/
def readSettingsFile (name : String) : IO FileContents := do
  try
    return .bytes (← IO.FS.readBinFile name).data.toList
  catch
    | .noFileOrDirectory .. => return .unreadable noSuchFile
    | e => return .unreadable (toString e)

/-- Answers requests until the input ends. -/
partial def serveLines (input output : IO.FS.Stream) (service : Service) (lastSweep : Int) :
    IO Unit := do
  let line ← input.getLine
  if line.isEmpty then return
  let now : Int := (← IO.monoNanosNow)
  let due := service.sweepIsDue lastSweep now
  let (reply, service) :=
    (if due then service.sweep now else service).respond now (.ofLine line.trimAsciiEnd.copy)
  output.putStrLn reply.toLine
  output.flush
  serveLines input output service (if due then now else lastSweep)

def main : IO UInt32 := do
  let file ← (← IO.getEnv "GUARD_CONFIG").mapM readSettingsFile
  let settings ← Variable.all.filterMapM fun v => do
    return (← IO.getEnv v.name).map fun value => (v.name, value)
  let start := Service.start file fun name => settings.lookup name
  for event in start.events do
    IO.println event.print
  match start.result with
  | .error stop => IO.eprint stop.report
  | .ok (service, _) =>
    serveLines (← IO.getStdin) (← IO.getStdout) service (← IO.monoNanosNow)
  return start.exitCode
