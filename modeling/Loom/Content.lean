import Loom.Config
import Loom.Document.Form
import Loom.Document.Header
import Loom.Path

/-!
What files hold: a module, structured data such as a configuration, or other octets. The path of a file decides how it
is read.
-/
namespace Loom

/-- What a file holds. -/
inductive Content where
  | module (d : Document)
  | data (d : Datum)
  | octets (bs : List UInt8)
  deriving Inhabited

namespace Content

/-- Reads a module. An empty file is an empty document. -/
def document (path : String) : Content → Except Failure Document
  | .module d => .ok d
  | .data d =>
    if Path.isBinary path then .error (.link "" .foreignHeader)
    else match Document.ofDatum? d with
      | some d => .ok d
      | none => .error (.link path .malformed)
  | .octets bs =>
    if Path.isBinary path then .error (.link "" ((Document.headerFault? bs).getD .malformed))
    else if bs.isEmpty then .ok {}
    else .error (.link path .malformed)

def config (path : String) : Content → Except Config.Fault Config
  | .data d => Config.ofDatum (.ofPath path) d
  | .module _ => if Config.Format.ofPath path = .loose then .ok {} else .error .undecodable
  | .octets bs => if bs.isEmpty then .ok {} else .error .undecodable

end Content
end Loom
