import DistantChunks.Records.Reference

/-!
# Failures

Everything that can go wrong while records are read, templates are loaded and worlds are opened,
each with the words in which it is reported.
-/

namespace DistantChunks

inductive Failure where
  | cellRead (x y : Int) (context : Nat) (reason : String)
  | unresolvable (kind : RecordKind)
  | templateLoad (path reason : String)
  | config (cause : String)
  | io (cause : String)
  | json
  deriving DecidableEq, Repr

namespace Failure

def message : Failure → String
  | cellRead x y context reason =>
    "cell (" ++ x.repr ++ ", " ++ y.repr ++ ") context " ++ context.repr ++
      " could not be read: " ++ reason
  | unresolvable kind => "no model lookup for record type " ++ kind.title
  | templateLoad path reason => "template " ++ path ++ " failed to load: " ++ reason
  | config cause => "Config error: " ++ cause
  | io cause => "IO error: " ++ cause
  | json => "JSON error"

end Failure

end DistantChunks
