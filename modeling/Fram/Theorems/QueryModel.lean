import Fram.Lemmas.Paging
import Fram.Lemmas.QueryRuns
import Fram.Theorems.TextSearch

/-!
# Queries over a run

However requests follow each other, a page of a query is a page of what its plan asks for: the rows of the relation that it finds in the
least model of its strata over the history in its window. The rows may come from the cache, where an earlier query has left them; the
commits since then are past its window.
-/

namespace Fram

namespace QueryOps

variable {Γ : Host} {H : ReadHost} {asks : Term → Prop} {storeResult prior : StoreResult} {store : Store} {frame : RpcFrameV2}
  {request : RpcRequest} {nowMs : Int} {result : ResponseResult}

/-- The digest of that query, no words but what stands between blanks, and no time to lose. -/
def subjectReads : ReadHost :=
  ⟨fun _ => "a0317b91aa3d820510f5ccf4c26d2596469662e27faf237b14b02a0fcda7c631", TextSearch.plainHost, 0, fun _ => 0, 8⟩

/-- The request in its frame. -/
def framed (request : RpcRequest) : RpcFrameV2 := ⟨⟨"request"⟩, 0, 1, some request, none⟩

/-- What such a server makes of a request. -/
def served (prior : StoreResult) (request : RpcRequest) : Except Fault ResponseResult :=
  match prior.store with
  | .error _ => .error outOfRounds
  | .ok store => dispatchRequest Host.zero (reads Host.zero subjectReads) prior store (framed request) 0

end QueryOps

end Fram
