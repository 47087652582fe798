/-! The names by which `--ignore-pid` puts processes together, in both post-processing
scripts.
-/

namespace LinuxDoc.TracePostprocess

def stripPid (processPid : List Char) : List Char :=
  match processPid.reverse.dropWhile (·.isDigit) with
  | '-' :: name => name.reverse
  | _ => processPid

def processName (processPid : List Char) : List Char :=
  let process := stripPid processPid
  if process = [] then "NO_PROCESS_NAME".toList else process

example : processName "kswapd0-35".toList = "kswapd0".toList := by decide

example : processName "-35".toList = "NO_PROCESS_NAME".toList := by decide

end LinuxDoc.TracePostprocess
