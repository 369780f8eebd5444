import Plainchain.Lib.JsonText

/-!
# JSON-RPC

The dispatcher: a body is parsed, alone or as a batch, and each request in it is checked,
looked up in the table of methods and answered. What the handlers return, or throw, is
arbitrary here, and may differ between the requests of a batch, as these run concurrently.

The table is a plain object. A name that it inherits, such as `toString`, is found in it
like a method: there is no handler to run, and the `TypeError` is answered.

* `handleOne`, `dispatch`, `batchWeight`;
* `Exact`: who runs, what is answered and recorded, and what it is charged;
* `dispatch_exact_iff`: this holds where no request names an inherited property.
-/

namespace Plainchain

open Js List

namespace RpcErrorCode

def PARSE_ERROR : ℤ := -32700

def INVALID_REQUEST : ℤ := -32600

def METHOD_NOT_FOUND : ℤ := -32601

def INVALID_PARAMS : ℤ := -32602

def INTERNAL_ERROR : ℤ := -32603

def UNAUTHORIZED : ℤ := -32004

end RpcErrorCode

structure JsonRpcError where
  code : ℤ
  message : Text
  data : Option Value

/-- What can be thrown: an error of the protocol, another `Error`, or anything else. -/
inductive Thrown
  | rpc (err : JsonRpcError)
  | error (message : Text)
  | other

inductive JsonRpcReply
  | result (value : Value)
  | error (err : JsonRpcError)

structure JsonRpcResponse where
  id : Value
  reply : JsonRpcReply

inductive JsonRpcOutcome
  | ok
  | error
  | unauthorized
  | not_found
  | invalid
  deriving DecidableEq

/-! ## The table of methods -/

/-- An entry of the table, its handler apart. -/
structure MethodEntry where
  params : List Text
  requiresAuth : Bool

def methods : List (Text × MethodEntry) :=
  [(lit "getTip", ⟨[], false⟩),
    (lit "getInfo", ⟨[], false⟩),
    (lit "getBlockByHeight", ⟨[lit "height"], false⟩),
    (lit "getBlockByHash", ⟨[lit "hash"], false⟩),
    (lit "getBalance", ⟨[lit "address"], false⟩),
    (lit "listUnspent", ⟨[lit "address"], false⟩),
    (lit "listTransactions", ⟨[lit "address", lit "limit"], false⟩),
    (lit "getHeaders", ⟨[lit "fromHeight", lit "count"], false⟩),
    (lit "getMerkleProof", ⟨[lit "txId"], false⟩),
    (lit "getAnchors", ⟨[lit "data", lit "limit"], false⟩),
    (lit "anchorRecord", ⟨[lit "data"], true⟩),
    (lit "getSupply", ⟨[], false⟩),
    (lit "getMempool", ⟨[], false⟩),
    (lit "sendRawTransaction", ⟨[lit "transaction"], false⟩),
    (lit "mine", ⟨[], true⟩)]

/-- The names that every plain object inherits from `Object.prototype`. -/
def objectPrototype : List Text :=
  [lit "constructor", lit "__defineGetter__", lit "__defineSetter__", lit "hasOwnProperty",
    lit "__lookupGetter__", lit "__lookupSetter__", lit "isPrototypeOf",
    lit "propertyIsEnumerable", lit "toString", lit "valueOf", lit "__proto__",
    lit "toLocaleString"]

/-- What `methods[method]` gives, if it is there. An inherited one has neither a handler
    nor parameters. -/
inductive MethodProperty
  | own (entry : MethodEntry)
  | inherited

namespace MethodProperty

def params : MethodProperty → Option (List Text)
  | own entry => some entry.params
  | inherited => none

def requiresAuth : MethodProperty → Bool
  | own entry => entry.requiresAuth
  | inherited => false

end MethodProperty

def methodProperty (method : Text) : Option MethodProperty :=
  match methods.lookup method with
  | some entry => some (.own entry)
  | none => if method ∈ objectPrototype then some .inherited else none

/-- The label under which a call is recorded: `method in methods`. -/
def recordLabel (method : Text) : Text :=
  if (methodProperty method).isSome then method else lit "unknown"

/-! ## One request -/

/-- The handlers, by the name of their method. -/
abbrev Handlers := Text → Value → Except Thrown Value

/-- What is done for one request: the handler that runs, with its parameters; what is
    recorded; and the response, if there is one. -/
structure HandledCall where
  ran : Option (Text × Value)
  label : Text
  outcome : JsonRpcOutcome
  response : Option JsonRpcResponse

def namedParams (raw : Value) (names : Option (List Text)) : Except Thrown Value :=
  match raw, names with
  | .undefined, _ => .ok (.obj [])
  | .arr vs, some names => .ok (.obj (names.mapIdx fun i name => (name, vs.getD i .undefined)))
  -- An inherited property has no `params` to map.
  | .arr _, none => .error (.error (lit "Cannot read properties of undefined (reading 'map')"))
  | .obj fields, _ => .ok (.obj fields)
  | _, _ => .error (.rpc ⟨RpcErrorCode.INVALID_PARAMS, lit "params must be an array or object", none⟩)

def errorResponse (id : Value) : Thrown → JsonRpcResponse
  | .rpc err => ⟨id, .error err⟩
  | .error message => ⟨id, .error ⟨RpcErrorCode.INTERNAL_ERROR, message, none⟩⟩
  | .other => ⟨id, .error ⟨RpcErrorCode.INTERNAL_ERROR, lit "internal error", none⟩⟩

def isNotification : Value → Bool
  | .obj fields => (fields.lookup (lit "id")).isNone
  | _ => false

def responseId (request : Value) : Value :=
  match request.get (lit "id") with
  | .str t => .str t
  | .num x => .num x
  | _ => .null

/-- The method of a request of the protocol. -/
def methodOf (request : Value) : Option Text :=
  match request.get (lit "jsonrpc"), request.get (lit "method") with
  | .str version, .str method => if version = lit "2.0" then some method else none
  | _, _ => none

def invalidCall (id : Value) (code : ℤ) (message : Text) : HandledCall :=
  ⟨none, recordLabel (lit "unknown"), .invalid, some (errorResponse id (.rpc ⟨code, message, none⟩))⟩

/-- The response to a request, unless it is a notification. -/
def respond (request : Value) (reply : Except Thrown Value) : Option JsonRpcResponse :=
  if isNotification request then none
  else some <|
    match reply with
    | .ok result => ⟨responseId request, .result result⟩
    | .error err => errorResponse (responseId request) err

/-- The call of the handler: its parameters are named first. -/
def callHandler (handlers : Handlers) (method : Text) (property : MethodProperty) (params : Value) :
    Option (Text × Value) × Except Thrown Value :=
  match namedParams params property.params, property with
  | .error err, _ => (none, .error err)
  | .ok named, .own _ => (some (method, named), handlers method named)
  | .ok _, .inherited => (none, .error (.error (lit "entry.handler is not a function")))

def notFound (method : Text) : JsonRpcError :=
  ⟨RpcErrorCode.METHOD_NOT_FOUND, lit "method not found: " ++ method, none⟩

def unauthorized (method : Text) : JsonRpcError :=
  ⟨RpcErrorCode.UNAUTHORIZED, lit "unauthorized: " ++ method ++ lit " requires a bearer token", none⟩

/-- A request of the protocol. -/
def handleMethod (handlers : Handlers) (authenticated : Bool) (request : Value) (method : Text) :
    HandledCall :=
  match methodProperty method with
  | none =>
    ⟨none, recordLabel method, .not_found, respond request (.error (.rpc (notFound method)))⟩
  | some property =>
    if property.requiresAuth ∧ ¬ authenticated then
      ⟨none, recordLabel method, .unauthorized,
        respond request (.error (.rpc (unauthorized method)))⟩
    else
      let called := callHandler handlers method property (request.get (lit "params"))
      ⟨called.1, recordLabel method, if called.2.isOk then .ok else .error,
        respond request called.2⟩

def handleOne (handlers : Handlers) (authenticated : Bool) (request : Value) : HandledCall :=
  match request with
  | .obj fields =>
    match methodOf (.obj fields) with
    | some method => handleMethod handlers authenticated (.obj fields) method
    | none =>
      invalidCall (responseId (.obj fields)) RpcErrorCode.INVALID_REQUEST
        (lit "expected jsonrpc \"2.0\" and a string method")
  | _ => invalidCall .null RpcErrorCode.INVALID_REQUEST (lit "request must be an object")

/-! ## Bodies -/

inductive JsonRpcAnswer
  | nothing
  | single (response : JsonRpcResponse)
  | batch (responses : List JsonRpcResponse)

namespace JsonRpcAnswer

def ofResponse : Option JsonRpcResponse → JsonRpcAnswer
  | none => nothing
  | some response => single response

def ofResponses : List JsonRpcResponse → JsonRpcAnswer
  | [] => nothing
  | response :: responses => batch (response :: responses)

end JsonRpcAnswer

/-- All that is done for a body, and the answer to it. `handlers i` is what the handlers
    do for the request `i` of a batch. -/
def dispatch (real : Text → Number) (handlers : ℕ → Handlers) (authenticated : Bool)
    (rawBody : Text) : List HandledCall × JsonRpcAnswer :=
  match Json.parse real rawBody with
  | none =>
    let call := invalidCall .null RpcErrorCode.PARSE_ERROR (lit "parse error: invalid JSON")
    ([call], .ofResponse call.response)
  | some (.arr []) =>
    let call := invalidCall .null RpcErrorCode.INVALID_REQUEST (lit "empty batch")
    ([call], .ofResponse call.response)
  | some (.arr (request :: requests)) =>
    let calls := (request :: requests).mapIdx fun i r => handleOne (handlers i) authenticated r
    (calls, .ofResponses (calls.filterMap HandledCall.response))
  | some request =>
    let call := handleOne (handlers 0) authenticated request
    ([call], .ofResponse call.response)

def trimStart (t : Text) : Text := t.dropWhile (· ∈ whiteSpace)

def batchWeight (real : Text → Number) (rawBody : Text) : ℕ :=
  if (trimStart rawBody).head? = some (unit '[') then
    match Json.parse real rawBody with
    | some (.arr requests) => max 1 requests.length
    | _ => 1
  else 1

/-! ## What is asked of the dispatcher -/

/-- The requests of a body. -/
def requestsOf (real : Text → Number) (rawBody : Text) : List Value :=
  match Json.parse real rawBody with
  | none => []
  | some (.arr requests) => requests
  | some request => [request]

/-- A request of the protocol that asks for no response. -/
def validNotification (request : Value) : Bool :=
  (methodOf request).isSome && isNotification request

section Exact

variable (real : Text → Number) (handlers : ℕ → Handlers) (authenticated : Bool) (rawBody : Text)

structure DispatchExact : Prop where
  /-- Only methods run, and those that require it only with the token. -/
  auth : ∀ call ∈ (dispatch real handlers authenticated rawBody).1, ∀ run ∈ call.ran,
    ∃ entry, methods.lookup run.1 = some entry ∧ (entry.requiresAuth → authenticated)
  /-- Other names are not found, whatever they are. -/
  unknown : ∀ (i : ℕ) (request : Value) (method : Text),
    (requestsOf real rawBody)[i]? = some request → methodOf request = some method →
    methods.lookup method = none →
    ∃ call, (dispatch real handlers authenticated rawBody).1[i]? = some call ∧ call.ran = none ∧
      call.label = lit "unknown" ∧
      call.response = if isNotification request then none
        else some ⟨responseId request, .error (notFound method)⟩
  /-- A request alone is answered with its response. -/
  alone : ∀ request, Json.parse real rawBody = some request → (∀ vs, request ≠ .arr vs) →
    ∃ call, (dispatch real handlers authenticated rawBody) = ([call], .ofResponse call.response) ∧
      (call.response.isSome ↔ ¬ validNotification request)
  /-- A batch is answered in order, valid notifications apart. -/
  batch : ∀ requests, Json.parse real rawBody = some (.arr requests) → requests ≠ [] →
    ∃ responses, (dispatch real handlers authenticated rawBody).2 = .ofResponses responses ∧
      responses.map some = (((requests.zip (dispatch real handlers authenticated rawBody).1).filter
        fun entry => !validNotification entry.1).map fun entry => entry.2.response)
  charged : ((dispatch real handlers authenticated rawBody).1.filter fun call =>
    call.ran.isSome).length ≤ batchWeight real rawBody

end Exact

/-! ## One request -/

variable {run : Text × Value}

section One

variable {handlers : Handlers} {authenticated : Bool} {request : Value} {method : Text}

theorem methodProperty_own {entry : MethodEntry} (h : methods.lookup method = some entry) :
    methodProperty method = some (.own entry) := by
  rw [methodProperty, h]

theorem methodProperty_of_lookup (h : methods.lookup method = none) :
    methodProperty method = if method ∈ objectPrototype then some .inherited else none := by
  rw [methodProperty, h]

theorem lookup_of_own {entry : MethodEntry} (h : methodProperty method = some (.own entry)) :
    methods.lookup method = some entry := by
  cases hlookup : methods.lookup method with
  | some e =>
    rw [methodProperty_own hlookup] at h
    cases h
    rfl
  | none =>
    rw [methodProperty_of_lookup hlookup] at h
    split_ifs at h
    cases h

theorem ran_callHandler {property : MethodProperty} {params : Value}
    (h : run ∈ (callHandler handlers method property params).1) :
    run.1 = method ∧ ∃ entry, property = .own entry := by
  unfold callHandler at h
  split at h
  · cases h
  · next named entry hnamed =>
    cases h
    exact ⟨rfl, entry, rfl⟩
  · cases h

theorem handleOne_of_methodOf (h : methodOf request = some method) :
    handleOne handlers authenticated request =
      handleMethod handlers authenticated request method := by
  cases request with
  | obj fields => simp only [handleOne, h]
  | _ => cases h

variable (handlers authenticated) in
theorem handleOne_invalid (h : methodOf request = none) :
    ∃ id message, handleOne handlers authenticated request =
      invalidCall id RpcErrorCode.INVALID_REQUEST message := by
  unfold handleOne
  split
  · rw [h]
    exact ⟨_, _, rfl⟩
  · exact ⟨_, _, rfl⟩

/-- What runs is a method, and one that requires the token only with it. -/
theorem handleOne_ran (h : run ∈ (handleOne handlers authenticated request).ran) :
    ∃ entry, methods.lookup run.1 = some entry ∧ (entry.requiresAuth → authenticated) := by
  cases hmethod : methodOf request with
  | none =>
    obtain ⟨id, message, heq⟩ := handleOne_invalid handlers authenticated hmethod
    rw [heq] at h
    cases h
  | some method =>
    rw [handleOne_of_methodOf hmethod, handleMethod] at h
    split at h
    · cases h
    · next property hproperty =>
      split_ifs at h with hauth
      · cases h
      · obtain ⟨hrun, entry, rfl⟩ := ran_callHandler h
        refine ⟨entry, hrun ▸ lookup_of_own hproperty, fun hrequires => ?_⟩
        by_contra hno
        exact hauth ⟨hrequires, hno⟩

theorem respond_isSome (reply : Except Thrown Value) :
    (respond request reply).isSome ↔ ¬ isNotification request := by
  unfold respond
  split_ifs with h <;> simp [h]

/-- Every request has a response, valid notifications apart. -/
theorem handleOne_response :
    (handleOne handlers authenticated request).response.isSome ↔ ¬ validNotification request := by
  unfold validNotification
  cases hmethod : methodOf request with
  | none =>
    obtain ⟨id, message, heq⟩ := handleOne_invalid handlers authenticated hmethod
    rw [heq]
    simp [invalidCall]
  | some method =>
    have hresponse : ∃ reply, (handleOne handlers authenticated request).response =
        respond request reply := by
      rw [handleOne_of_methodOf hmethod, handleMethod]
      split
      · exact ⟨.error (.rpc (notFound method)), rfl⟩
      · split_ifs
        · exact ⟨.error (.rpc (unauthorized method)), rfl⟩
        · exact ⟨(callHandler handlers method _ (request.get (lit "params"))).2, rfl⟩
    obtain ⟨reply, hreply⟩ := hresponse
    rw [hreply, respond_isSome]
    simp

/-- A name that is not found. -/
theorem handleOne_not_found (h : methodOf request = some method)
    (hproperty : methodProperty method = none) :
    handleOne handlers authenticated request = ⟨none, lit "unknown", .not_found,
      respond request (.error (.rpc (notFound method)))⟩ := by
  rw [handleOne_of_methodOf h, handleMethod, hproperty, recordLabel, hproperty]
  rfl

/-- A name that is inherited is recorded. -/
theorem label_of_inherited (h : methodOf request = some method)
    (hproperty : methodProperty method = some .inherited) :
    (handleOne handlers authenticated request).label = method := by
  have hlabel : (handleOne handlers authenticated request).label = recordLabel method := by
    rw [handleOne_of_methodOf h, handleMethod, hproperty]
    dsimp only
    split_ifs <;> rfl
  rw [hlabel, recordLabel, hproperty]
  rfl

end One

/-! ## Whole bodies -/

section Body

variable {real : Text → Number} {handlers : ℕ → Handlers} {authenticated : Bool} {rawBody : Text}

variable {requests : List Value} {request : Value}

theorem dispatch_batch (h : Json.parse real rawBody = some (.arr requests)) (hne : requests ≠ []) :
    dispatch real handlers authenticated rawBody =
      (requests.mapIdx fun i r => handleOne (handlers i) authenticated r,
        .ofResponses ((requests.mapIdx fun i r =>
          handleOne (handlers i) authenticated r).filterMap HandledCall.response)) := by
  cases requests with
  | nil => exact absurd rfl hne
  | cons request requests => simp only [dispatch, h]

theorem dispatch_alone (h : Json.parse real rawBody = some request) (harr : ∀ vs, request ≠ .arr vs)
    :
    dispatch real handlers authenticated rawBody =
      ([handleOne (handlers 0) authenticated request],
        .ofResponse (handleOne (handlers 0) authenticated request).response) := by
  cases request with
  | arr vs => exact absurd rfl (harr vs)
  | _ => simp only [dispatch, h]

theorem requestsOf_batch (h : Json.parse real rawBody = some (.arr requests)) :
    requestsOf real rawBody = requests := by
  simp only [requestsOf, h]

theorem requestsOf_alone (h : Json.parse real rawBody = some request)
    (harr : ∀ vs, request ≠ .arr vs) : requestsOf real rawBody = [request] := by
  cases request with
  | arr vs => exact absurd rfl (harr vs)
  | _ => simp only [requestsOf, h]

variable (real handlers authenticated rawBody) in
/-- What is done for a body: for each of its requests, or one invalid call where it has
    none. -/
theorem dispatch_calls :
    ((dispatch real handlers authenticated rawBody).1 =
      (requestsOf real rawBody).mapIdx fun i r => handleOne (handlers i) authenticated r) ∨
    (requestsOf real rawBody = [] ∧ ∃ code message,
      (dispatch real handlers authenticated rawBody).1 = [invalidCall .null code message]) := by
  cases h : Json.parse real rawBody with
  | none =>
    refine .inr ⟨by simp only [requestsOf, h], ?_⟩
    simp only [dispatch, h]
    exact ⟨_, _, rfl⟩
  | some v =>
    by_cases harr : ∃ vs, v = .arr vs
    · obtain ⟨requests, rfl⟩ := harr
      by_cases hne : requests = []
      · subst hne
        refine .inr ⟨requestsOf_batch h, ?_⟩
        simp only [dispatch, h]
        exact ⟨_, _, rfl⟩
      · rw [dispatch_batch h hne, requestsOf_batch h]
        exact .inl rfl
    · have harr' : ∀ vs, v ≠ .arr vs := fun vs hvs => harr ⟨vs, hvs⟩
      rw [dispatch_alone h harr', requestsOf_alone h harr']
      exact .inl rfl

theorem dispatch_get {i : ℕ} (h : (requestsOf real rawBody)[i]? = some request) :
    (dispatch real handlers authenticated rawBody).1[i]? =
      some (handleOne (handlers i) authenticated request) := by
  rcases dispatch_calls real handlers authenticated rawBody with hcalls | ⟨hnil, -⟩
  · rw [hcalls, getElem?_mapIdx, h]
    rfl
  · rw [hnil] at h
    cases h

/-- What runs, runs for a request. -/
theorem ran_of_dispatch {call : HandledCall}
    (h : call ∈ (dispatch real handlers authenticated rawBody).1) (hrun : run ∈ call.ran) :
    ∃ i request, call = handleOne (handlers i) authenticated request := by
  rcases dispatch_calls real handlers authenticated rawBody with hcalls | ⟨-, code, message, hcalls⟩
  · rw [hcalls] at h
    obtain ⟨i, hi, rfl⟩ := mem_mapIdx.1 h
    exact ⟨i, _, rfl⟩
  · rw [hcalls, mem_singleton] at h
    subst h
    cases hrun

/-! ## The charge -/

theorem mem_whiteSpace_of_isSpace {u : UInt16} (h : Json.isSpace u) : u ∈ whiteSpace := by
  simp only [Json.isSpace, Bool.or_eq_true, beq_iff_eq] at h
  rcases h with ((rfl | rfl) | rfl) | rfl <;> decide

/-- A body that is an array is seen to be one. -/
theorem trimStart_batch (h : Json.parse real rawBody = some (.arr requests)) :
    (trimStart rawBody).head? = some (unit '[') := by
  obtain ⟨space, rest, rfl, hspace⟩ := Json.parse_arr h
  have hdrop : space.dropWhile (· ∈ whiteSpace) = [] :=
    dropWhile_eq_nil_iff.2 fun u hu => by simpa using mem_whiteSpace_of_isSpace (hspace u hu)
  rw [trimStart, dropWhile_append, hdrop]
  rfl

theorem batchWeight_batch (h : Json.parse real rawBody = some (.arr requests)) :
    batchWeight real rawBody = max 1 requests.length := by
  rw [batchWeight, if_pos (trimStart_batch h), h]

theorem one_le_batchWeight : 1 ≤ batchWeight real rawBody := by
  unfold batchWeight
  split_ifs
  · split
    · exact le_max_left _ _
    · exact le_rfl
  · exact le_rfl

theorem length_requestsOf_le : (requestsOf real rawBody).length ≤ batchWeight real rawBody := by
  cases h : Json.parse real rawBody with
  | none => simp only [requestsOf, h, length_nil, Nat.zero_le]
  | some v =>
    by_cases harr : ∃ vs, v = .arr vs
    · obtain ⟨requests, rfl⟩ := harr
      rw [requestsOf_batch h, batchWeight_batch h]
      exact le_max_right _ _
    · rw [requestsOf_alone h fun vs hvs => harr ⟨vs, hvs⟩]
      exact one_le_batchWeight

theorem length_dispatch_le :
    (dispatch real handlers authenticated rawBody).1.length ≤ batchWeight real rawBody := by
  rcases dispatch_calls real handlers authenticated rawBody with hcalls | ⟨-, code, message, hcalls⟩
  · rw [hcalls, length_mapIdx]
    exact length_requestsOf_le
  · rw [hcalls]
    exact one_le_batchWeight

/-! ## Batches -/

/-- The responses of the calls that have one are those of the entries selected. -/
theorem map_some_filterMap {α : Type} {g : α → Option JsonRpcResponse} {p : α → Bool} {l : List α}
    (h : ∀ a ∈ l, ((g a).isSome ↔ p a)) : (l.filterMap g).map some = (l.filter p).map g := by
  induction l with
  | nil => rfl
  | cons a l ih =>
    have ha := h a mem_cons_self
    have hl := ih fun b hb => h b (mem_cons_of_mem _ hb)
    cases hg : g a with
    | none =>
      rw [hg] at ha
      rw [filterMap_cons_none hg, filter_cons_of_neg fun hp => by simpa using ha.2 hp, hl]
    | some r =>
      rw [hg] at ha
      rw [filterMap_cons_some hg, filter_cons_of_pos (ha.1 rfl), map_cons,
        map_cons, hl, hg]

theorem batch_responses (requests : List Value) (calls : List HandledCall)
    (hcalls : calls = requests.mapIdx fun i r => handleOne (handlers i) authenticated r) :
    (calls.filterMap HandledCall.response).map some =
      ((requests.zip calls).filter fun entry => !validNotification entry.1).map
        fun entry => entry.2.response := by
  have hlength : calls.length ≤ requests.length := by rw [hcalls, length_mapIdx]
  have hzip : calls.filterMap HandledCall.response =
      (requests.zip calls).filterMap fun entry => entry.2.response := by
    conv_lhs => rw [← map_snd_zip hlength, filterMap_map]
    rfl
  rw [hzip]
  refine map_some_filterMap fun entry hentry => ?_
  obtain ⟨i, hi, rfl⟩ := mem_iff_getElem.1 hentry
  subst hcalls
  rw [getElem_zip, getElem_mapIdx, handleOne_response]
  simp

end Body

/-- The dispatcher is exact on the bodies of which no request names a property that the
    table of methods inherits: such a call is recorded under its name, and answered with
    what it throws. -/
theorem dispatch_exact_iff (real : Text → Number) (handlers : ℕ → Handlers) (authenticated : Bool)
    (rawBody : Text) :
    DispatchExact real handlers authenticated rawBody ↔
      ∀ request ∈ requestsOf real rawBody, ∀ method, methodOf request = some method →
        method ∉ objectPrototype := by
  have hown : ∀ method ∈ objectPrototype, methods.lookup method = none ∧ method ≠ lit "unknown" := by
    decide
  constructor
  · intro h request hrequest method hmethod hproto
    obtain ⟨i, hi, rfl⟩ := mem_iff_getElem.1 hrequest
    have hget := getElem?_eq_getElem hi
    obtain ⟨hlookup, hne⟩ := hown method hproto
    obtain ⟨call, hcall, -, hlabel, -⟩ := h.unknown i _ method hget hmethod hlookup
    rw [dispatch_get hget] at hcall
    cases hcall
    rw [label_of_inherited hmethod (by rw [methodProperty_of_lookup hlookup, if_pos hproto])]
      at hlabel
    exact hne hlabel
  · intro h
    refine ⟨?_, ?_, ?_, ?_, ?_⟩
    · intro call hcall run hrun
      obtain ⟨i, request, rfl⟩ := ran_of_dispatch hcall hrun
      exact handleOne_ran hrun
    · intro i request method hget hmethod hlookup
      have hproto := h request (mem_of_getElem? hget) method hmethod
      refine ⟨_, dispatch_get hget, ?_⟩
      rw [handleOne_not_found hmethod (by rw [methodProperty_of_lookup hlookup, if_neg hproto])]
      exact ⟨rfl, rfl, rfl⟩
    · intro request hparse harr
      exact ⟨_, dispatch_alone hparse harr, handleOne_response⟩
    · intro requests hparse hne
      rw [dispatch_batch hparse hne]
      exact ⟨_, rfl, batch_responses requests _ rfl⟩
    · exact (length_filter_le _ _).trans length_dispatch_le

/-- A request with an inherited name: `toString`. -/
def inheritedBody : Text :=
  lit "\x7b\"jsonrpc\":\"2.0\",\"method\":\"toString\",\"id\":1\x7d"

/-- The code of an error that is answered. -/
def JsonRpcResponse.errorCode (response : JsonRpcResponse) : Option ℤ :=
  match response.reply with
  | .result _ => none
  | .error err => some err.code

/-- The call is recorded under the name that the client sent, and answered with an
    internal error. -/
theorem dispatch_inherited :
    methods.lookup (lit "toString") = none ∧
      (dispatch (fun _ => .int 0) (fun _ _ _ => .ok .null) false inheritedBody).1.map
        (fun call => (call.ran.isSome, call.label, call.outcome,
          call.response.bind JsonRpcResponse.errorCode)) =
        [(false, lit "toString", .error, some RpcErrorCode.INTERNAL_ERROR)] ∧
      ¬ DispatchExact (fun _ => .int 0) (fun _ _ _ => .ok .null) false inheritedBody := by
  have hcalls : (dispatch (fun _ => .int 0) (fun _ _ _ => .ok .null) false inheritedBody).1.map
      (fun call => (call.ran.isSome, call.label, call.outcome,
        call.response.bind JsonRpcResponse.errorCode)) =
      [(false, lit "toString", .error, some RpcErrorCode.INTERNAL_ERROR)] := by
    decide +kernel
  have hrequest : (requestsOf (fun _ => .int 0) inheritedBody)[0]? =
      some (.obj [(lit "jsonrpc", .str (lit "2.0")), (lit "method", .str (lit "toString")),
        (lit "id", .num (.int 1))]) := rfl
  refine ⟨rfl, hcalls, fun h => ?_⟩
  obtain ⟨call, hcall, -, hlabel, -⟩ := h.unknown 0 _ (lit "toString") hrequest rfl rfl
  rw [dispatch_get hrequest] at hcall
  cases hcall
  have hne : lit "toString" ≠ lit "unknown" := by decide
  exact hne ((label_of_inherited rfl rfl).symm.trans hlabel)

end Plainchain
