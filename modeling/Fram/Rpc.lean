import Fram.Session

/-!
# Requests and responses as terms

The shapes that `src/fram/native_dispatch.bgl`, `src/fram/native_lease_ops.bgl` and `src/fram/native_query_ops.bgl` each define for
themselves: lists, records and options as terms, and the responses built of a request.
-/

namespace Fram

/-- (`max-list-values`) -/
def maxListValues : Nat := 65536

/-- The end of a list. -/
abbrev rpcListEnd : Term := .kw "rpc/list-end"

/-- (`rpc-list`) -/
def rpcList (values : List Term) : Term := values.foldr (fun value tail => .triple (.kw "rpc/list") value tail) rpcListEnd

/-- (`rpc-record`) -/
def rpcRecord (tag : String) (fields : List Term) : Triple := ⟨.kw tag, rpcList fields, .kw "rpc/record"⟩

/-- (`rpc-option`) -/
def rpcOption : Option Term → Term
  | none => .kw "rpc/none"
  | some value => .triple (.kw "rpc/some") value (.kw "rpc/option")

/-- (`rpc-triple-list`) -/
def rpcTripleList (values : List Triple) : Term := rpcList (values.map (·.term))

/-- (`rpc-triples`) -/
def rpcTriples (values : List Triple) : Triple := rpcRecord "rpc/triples" [rpcTripleList values]

/-- (`read-list`, after some values) -/
def readListFrom (count : Nat) : Term → Except String (List Term)
  | .triple t1 t2 t3 =>
    if maxListValues ≤ count then .error "RPC list exceeds the Term node bound"
    else if t1 = .kw "rpc/list" then do
      let values ← readListFrom (count + 1) t3
      .ok (t2 :: values)
    else .error "RPC list must end with :rpc/list-end"
  | .atom a =>
    if Term.atom a = rpcListEnd then .ok []
    else if maxListValues ≤ count then .error "RPC list exceeds the Term node bound"
    else .error "RPC list must end with :rpc/list-end"

/-- (`read-list`) -/
def readList (value : Term) : Except String (List Term) := readListFrom 0 value

/-- (`read-record`) -/
def readRecord (value : Term) (tag : String) (fieldCount : Nat) : Except String (List Term) :=
  match value with
  | .triple t1 t2 t3 =>
    if t1 = .kw tag ∧ t3 = .kw "rpc/record" then do
      let fields ← readList t2
      if fields.length = fieldCount then .ok fields
      else .error "RPC record contains the wrong number of fields"
    else .error "RPC record tag or marker is invalid"
  | .atom _ => .error "RPC record tag or marker is invalid"

/-- (`read-option`) -/
def readOption (value : Term) : Except String (Option Term) :=
  match value with
  | .triple t1 t2 t3 =>
    if t1 = .kw "rpc/some" ∧ t3 = .kw "rpc/option" then .ok (some t2)
    else .error "RPC option must be :rpc/none or a :rpc/some record"
  | .atom a =>
    if Term.atom a = .kw "rpc/none" then .ok none
    else .error "RPC option must be :rpc/none or a :rpc/some record"

/-- (`integer?`) The integer that a term is. -/
def Term.asInt : Term → Option Int
  | .atom (.int n) => some n
  | _ => none

/-- (`string?`) The text that a term is. -/
def Term.asString : Term → Option String
  | .atom (.string s) => some s
  | _ => none

/-! ## Responses -/

/-- (`response`) -/
def response (request : RpcRequest) (servedVersion : Int) (payload : Term) : RpcResponse :=
  ⟨request.space, request.op, servedVersion, none, none, some payload⟩

/-- (`paged-response`) -/
def pagedResponse (request : RpcRequest) (servedVersion : Int) (page : RpcPageResponse) (payload : Term) : RpcResponse :=
  ⟨request.space, request.op, servedVersion, some page, none, some payload⟩

/-- (`error-response`) -/
def errorResponse (request : RpcRequest) (servedVersion : Int) (code : String) (retryable : Bool) (message : String) :
    RpcResponse :=
  ⟨request.space, request.op, servedVersion, none, some ⟨⟨code⟩, retryable, message, none⟩, none⟩

/-- (`version-conflict?`) -/
def versionConflict (single : Bool) (baseVersion : Int) (expectedVersion : Option Int) : Bool :=
  match expectedVersion with
  | none => false
  | some expected => single && decide (expected < baseVersion)

/-- (`expected-version-matches?`) -/
def expectedVersionMatches (servedVersion : Int) (expectedVersion : Option Int) : Bool :=
  !versionConflict true servedVersion expectedVersion &&
    (expectedVersion.isNone || decide (some servedVersion = expectedVersion))

/-- (`unit-response`) -/
def unitResponse (request : RpcRequest) (servedVersion : Int) (payload : Term) : RpcResponse :=
  if request.payload = .kw "rpc/unit" then response request servedVersion payload
  else errorResponse request servedVersion "rpc-invalid-payload" false "operation payload must be :rpc/unit"

/-- (`mutation-response-encode-error!`, `response-encode-error!`) The error of encoding a response, if it cannot be encoded. -/
def responseEncodeError (candidate : RpcResponse) : Option String :=
  match encodeResponseBytes ⟨⟨"response"⟩, 0, 0, none, some candidate⟩ with
  | .ok _ => none
  | .error message => some message

end Fram
