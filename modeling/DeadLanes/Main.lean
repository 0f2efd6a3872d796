import DeadLanes.Demo

def main : IO UInt32 := do
  let out ← IO.getStdout
  match DeadLanes.Demo.report (← out.isTty) with
  | .ok text =>
    out.putStr text
    return 0
  | .error fault =>
    IO.eprintln fault.message
    return 1
