import SortKey.Stream.Input
import SortKey.Stream.Output

/-!
# Reading and writing one buffer

Both ends of one buffer are in use: fields are appended at its end and consumed from its front, in
any order. Offsets count from the first unread byte.
-/

namespace SortKey.Stream

inductive SessionStep
  | write (step : WriteStep)
  | read (step : ReadStep)
  deriving DecidableEq, Repr

inductive SessionReply
  | written (r : Except Violation (Option Nat))
  | read (reply : ReadReply)

namespace SessionStep

variable {β : Type} [Buf β] [BufMut β]

def run (step : SessionStep) (b : β) : SessionReply × β :=
  match step with
  | write step => (step.run b).map .written id
  | read step => (step.run b).map .read id

end SessionStep

end SortKey.Stream
