import Restake.Books.Basic

/-!
The delay between asking for an allocation and its taking effect, operator by operator. A new
delay itself waits for the configuration delay, so that those who delegate can react to it.
-/
namespace Restake.Books

def delaySetting (b : Books) (operator : Address) : DelaySetting := (b.delays.find? operator).getD {}

def requestDelay (configurationDelay : BlockNumber) (operator : Address) (delay block : BlockNumber) :
    Bookkeeping DelaySetting := do
  match BlockNumber.after? block configurationDelay with
  | none => throw (.blockOverflow block configurationDelay)
  | some effectBlock =>
    let setting := ((← get).delaySetting operator).request delay block effectBlock
    modify fun b => { b with delays := b.delays.insert operator setting }.emit
      (.allocationDelaySet operator delay effectBlock)
    return setting

/-- The delay in force at `block`, if one was ever set. -/
def effectiveDelay (b : Books) (operator : Address) (block : BlockNumber) :
    Except Failure BlockNumber :=
  match (b.delaySetting operator).resolve block with
  | (true, delay) => .ok delay
  | (false, _) => .error (.uninitializedAllocationDelay operator)

end Restake.Books
