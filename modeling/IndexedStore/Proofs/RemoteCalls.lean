import IndexedStore.Proofs.RemoteCache

/-!
Calls of a remote collection, one after another, each with the requests that were sent for it and
what was answered to them. What a call does is one of a few things, which are told apart here
once; what holds after any number of calls is derived from that.
-/
namespace IndexedStore.Http

inductive Call where
  | fetch
  | create (fields : Fields)
  | update (key : String) (fields : Fields)
  | delete (key : String)

namespace Call

def method : Call → Method
  | fetch => .get
  | create _ => .post
  | update .. => .put
  | delete _ => .delete

def body : Call → Option Json
  | create fields | update _ fields => some fields.toJson
  | fetch | delete _ => none

def isWrite : Call → Bool
  | fetch => false
  | create _ | update .. | delete _ => true

theorem eq_fetch_of_method {call : Call} (h : call.method = .get) : call = .fetch := by
  cases call with
  | fetch => rfl
  | create | update | delete => exact Method.noConfusion h

theorem method_ne_get {call : Call} (h : call.isWrite = true) : call.method ≠ .get := by
  intro hmethod
  rw [eq_fetch_of_method hmethod] at h
  exact Bool.false_ne_true h

end Call

def Client.log (c : Client) : List (Request × Except String Response) :=
  c.sent.mapIdx fun i request => (request, c.answer (c.sent.take i) request)

def Exchange.map {α β : Type} (f : α → β) (e : Exchange α) : Exchange β :=
  ⟨e.result.map f, e.collection, e.client⟩

namespace Collection

def address (c : Collection) : Call → String
  | .fetch | .create _ => c.uri
  | .update key _ | .delete key => c.recordUri key

def request (c : Collection) (call : Call) : Request :=
  ⟨call.method, c.address call, call.body, c.headers⟩

def perform (c : Collection) (client : Client) (now : Nat) : Call → Exchange (Option Json)
  | .fetch => (c.fetch client now).map some
  | .create fields => (c.create client now fields).map fun _ => none
  | .update key fields => (c.update client now key fields).map fun _ => none
  | .delete key => (c.delete client now key).map fun _ => none

end Collection

structure Dealing where
  call : Call
  sent : List (Request × Except String Response)
  result : Except StoreError (Option Json)

namespace Dealing

def Asked (d : Dealing) (method : Method) (uri : String) : Prop :=
  ∃ exchange ∈ d.sent, exchange.1.method = method ∧ exchange.1.uri = uri

def Got (d : Dealing) (method : Method) (uri : String) (response : Response) : Prop :=
  ∃ request, (request, .ok response) ∈ d.sent ∧ request.method = method ∧ request.uri = uri

def Fetched (d : Dealing) (uri : String) (response : Response) : Prop :=
  d.Got .get uri response ∧ response.isSuccess = true

def Wrote (d : Dealing) : Prop := d.call.isWrite = true ∧ ∃ x, d.result = .ok x

variable {call : Call} {request : Request} {result : Except StoreError (Option Json)}
  {method : Method} {uri : String} {response given : Response}

theorem Got.asked {d : Dealing} (h : d.Got method uri response) : d.Asked method uri := by
  obtain ⟨request, hrequest, hmethod, huri⟩ := h
  exact ⟨_, hrequest, hmethod, huri⟩

theorem not_got_of_unsent : ¬ (⟨call, [], result⟩ : Dealing).Got method uri response :=
  fun ⟨_, hrequest, _⟩ => absurd hrequest List.not_mem_nil

theorem not_got_of_unanswered {reason : String} :
    ¬ (⟨call, [(request, .error reason)], result⟩ : Dealing).Got method uri response := by
  rintro ⟨_, hrequest, -⟩
  exact absurd (List.mem_singleton.mp hrequest) (by simp)

theorem got_of_answered :
    (⟨call, [(request, .ok given)], result⟩ : Dealing).Got method uri response ↔
      response = given ∧ request.method = method ∧ request.uri = uri := by
  constructor
  · rintro ⟨_, hrequest, hmethod, huri⟩
    obtain ⟨rfl, hresponse⟩ := Prod.ext_iff.mp (List.mem_singleton.mp hrequest)
    exact ⟨Except.ok.inj hresponse, hmethod, huri⟩
  · rintro ⟨rfl, hmethod, huri⟩
    exact ⟨request, List.mem_singleton_self _, hmethod, huri⟩

theorem fetched_of_answered :
    (⟨call, [(request, .ok given)], result⟩ : Dealing).Fetched uri response ↔
      (response = given ∧ request.method = .get ∧ request.uri = uri) ∧
        response.isSuccess = true := by
  unfold Fetched
  rw [got_of_answered]

end Dealing

structure Session where
  collection : Collection
  client : Client
  dealings : List Dealing

namespace Session

def start (c : Collection) (client : Client) : Session := ⟨c, client, []⟩

def call (s : Session) (step : Nat × Call) : Session :=
  let e := s.collection.perform s.client step.1 step.2
  let sent := e.client.log.drop s.client.log.length
  ⟨e.collection, e.client, s.dealings ++ [⟨step.2, sent, e.result⟩]⟩

def after (s : Session) (steps : List (Nat × Call)) : Session := steps.foldl call s

end Session

/-! ### Sending -/

theorem Client.log_send (c : Client) (request : Request) :
    (c.send request).2.log = c.log ++ [(request, (c.send request).1)] := by
  unfold log send
  dsimp only
  rw [List.mapIdx_concat]
  congr 1
  · rw [List.mapIdx_eq_mapIdx_iff]
    intro i hi
    rw [List.take_append_of_le_length hi.le]
  · rw [List.take_left']
    rfl

/-- What an exchange leaves: of a collection only what is kept has changed, and the log of the
client is longer by what was sent. -/
structure Exchange.Leaves {α : Type} (e : Exchange α) (c : Collection) (client : Client)
    (kept : Cache) (sent : List (Request × Except String Response)) : Prop where
  collection : e.collection = { c with cache := kept }
  log : e.client.log = client.log ++ sent

theorem Exchange.Leaves.of_unsent {α : Type} (result : Except StoreError α) (c : Collection)
    (client : Client) (kept : Cache) :
    (⟨result, { c with cache := kept }, client⟩ : Exchange α).Leaves c client kept [] :=
  ⟨rfl, (List.append_nil _).symm⟩

def Response.Refuses (r : Response) : Prop := r.status = 401 ∨ r.status = 403 ∨ r.status = 405

theorem Response.Refuses.not_isSuccess {r : Response} (h : r.Refuses) : r.isSuccess = false := by
  unfold isSuccess
  rcases h with h | h | h <;> rw [h] <;> rfl

theorem Response.fault?_eq_none {r : Response} {uri : String} {method : Method}
    (h : r.fault? uri method = none) : r.isSuccess = true := by
  unfold fault? at h
  split_ifs at h with hsuccess
  exact hsuccess

theorem Response.fault?_eq_some {r : Response} {uri : String} {method : Method} {e : StoreError}
    (h : r.fault? uri method = some e) :
    r.isSuccess = false ∧ (e.isPermission = true ↔ r.Refuses) := by
  unfold fault? at h
  unfold Refuses
  split_ifs at h with hsuccess h401 h403 h405 <;> obtain rfl := Option.some.inj h
  · simp [hsuccess, h401, StoreError.isPermission]
  · simp [hsuccess, h403, StoreError.isPermission]
  · simp [hsuccess, h405, StoreError.isPermission]
  · simp [hsuccess, h401, h403, h405, StoreError.isPermission]

/-- What comes of a request to an address that was looked up before: what is kept then, what was
sent, and the result. -/
inductive Sends (cache : Cache) (now : Nat) (request : Request) :
    Cache → List (Request × Except String Response) → Except StoreError Response → Prop
  | barred (h : cache.permits request.uri request.method = false) :
      Sends cache now request cache []
        (.error (.methodNotAllowed request.uri request.method.name))
  | unanswered (h : cache.permits request.uri request.method = true) (reason : String) :
      Sends cache now request cache [(request, .error reason)] (.error (.transport reason))
  | refused (h : cache.permits request.uri request.method = true) (response : Response)
      (error : StoreError) (hrefuses : response.Refuses) :
      Sends cache now request (cache.deny now request.uri request.method)
        [(request, .ok response)] (.error error)
  | failed (h : cache.permits request.uri request.method = true) (response : Response)
      (error : StoreError) (hrefuses : ¬ response.Refuses) (hfault : response.isSuccess = false) :
      Sends cache now request cache [(request, .ok response)] (.error error)
  | answered (h : cache.permits request.uri request.method = true) (response : Response)
      (hsuccess : response.isSuccess = true) :
      Sends cache now request cache [(request, .ok response)] (.ok response)

namespace Sends

variable {cache kept : Cache} {now : Nat} {request : Request}
  {sent : List (Request × Except String Response)} {result : Except StoreError Response}

theorem request_eq (h : Sends cache now request kept sent result) :
    ∀ exchange ∈ sent, exchange.1 = request := by
  intro exchange hexchange
  cases h with
  | barred => exact absurd hexchange List.not_mem_nil
  | unanswered | refused | failed | answered => rw [List.mem_singleton.mp hexchange]

theorem of_ok {response : Response} (h : Sends cache now request kept sent (.ok response)) :
    kept = cache ∧ sent = [(request, .ok response)] ∧ response.isSuccess = true := by
  cases h with
  | answered hpermits _ hsuccess => exact ⟨rfl, rfl, hsuccess⟩

end Sends

namespace Collection

variable (c : Collection) (client : Client) (now : Nat)

theorem send_cases (uri : String) (method : Method) (body : Option Json) :
    ∃ kept sent, (c.send client now uri method body).Leaves c client kept sent ∧
      Sends (c.cache.seen now uri) now ⟨method, uri, body, c.headers⟩ kept sent
        (c.send client now uri method body).result := by
  have hallows := c.cache.permissions_allows now uri method
  have hlog := client.log_send ⟨method, uri, body, c.headers⟩
  unfold send
  dsimp only
  rw [c.cache.permissions_snd]
  split_ifs with hpermits <;> rw [hallows] at hpermits
  · cases hanswer : client.send ⟨method, uri, body, c.headers⟩ with
    | mk answer client' =>
      rw [hanswer] at hlog
      cases answer with
      | error reason =>
        refine ⟨_, _, ⟨rfl, hlog⟩, .unanswered ?_ reason⟩
        exact hpermits
      | ok response =>
        dsimp only
        cases hfault : response.fault? uri method with
        | none =>
          refine ⟨_, _, ⟨rfl, hlog⟩, .answered ?_ response (Response.fault?_eq_none hfault)⟩
          exact hpermits
        | some error =>
          obtain ⟨hfailed, hrefuses⟩ := Response.fault?_eq_some hfault
          refine ⟨_, _, ⟨rfl, hlog⟩, ?_⟩
          dsimp only
          split_ifs with hpermission
          · refine .refused ?_ response error (hrefuses.mp hpermission)
            exact hpermits
          · refine .failed ?_ response error (mt hrefuses.mpr hpermission) hfailed
            exact hpermits
  · exact ⟨_, _, .of_unsent _ c client _, .barred (by simpa using hpermits)⟩

/-! ### Calls -/

inductive Deals (c : Collection) (cache : Cache) (now : Nat) : Cache → Dealing → Prop
  | kept (body : Json) (hbody : cache.body? c.uri = some body) :
      Deals c cache now cache ⟨.fetch, [], .ok (some body)⟩
  | unsuccessful (call : Call) (hbody : call = .fetch → cache.body? c.uri = none)
      {kept : Cache} {sent : List (Request × Except String Response)} {error : StoreError}
      (hsends : Sends cache now (c.request call) kept sent (.error error)) :
      Deals c cache now kept ⟨call, sent, .error error⟩
  | fetched {kept : Cache} {sent : List (Request × Except String Response)} {response : Response}
      (hsends : Sends cache now (c.request .fetch) kept sent (.ok response)) :
      Deals c cache now
        (kept.put now c.uri response.body (response.permissions?.getD Permissions.all))
        ⟨.fetch, sent, .ok (some response.body)⟩
  | written (call : Call) (hcall : call.isWrite = true) {kept : Cache}
      {sent : List (Request × Except String Response)} {response : Response}
      (hsends : Sends cache now (c.request call) kept sent (.ok response)) :
      Deals c cache now (kept.invalidate now c.uri) ⟨call, sent, .ok none⟩

theorem write_cases (call : Call) (hcall : call.isWrite = true) :
    let e := (c.write client now (c.address call) call.method call.body).map fun _ => none
    ∃ kept sent, e.Leaves c client kept sent ∧
      Deals c (c.cache.seen now (c.address call)) now kept ⟨call, sent, e.result⟩ := by
  obtain ⟨kept, sent, ⟨hcollection, hlog⟩, hsends⟩ :=
    c.send_cases client now (c.address call) call.method call.body
  unfold write Exchange.andThen Exchange.map
  cases hresult : (c.send client now (c.address call) call.method call.body).result with
  | error error =>
    rw [hresult] at hsends
    have hfetch : call ≠ .fetch :=
      fun hfetch => Call.method_ne_get hcall (congrArg Call.method hfetch)
    exact ⟨kept, sent, ⟨hcollection, hlog⟩,
      .unsuccessful call (fun h => absurd h hfetch) hsends⟩
  | ok response =>
    rw [hresult] at hsends
    refine ⟨kept.invalidate now c.uri, sent, ⟨?_, hlog⟩, .written call hcall hsends⟩
    dsimp only
    rw [hcollection]
    rfl

theorem fetch_cases :
    let e := (c.fetch client now).map some
    ∃ kept sent, e.Leaves c client kept sent ∧
      Deals c (c.cache.seen now c.uri) now kept ⟨.fetch, sent, e.result⟩ := by
  have hbody : (c.cache.seen now c.uri).body? c.uri = (c.cache.get now c.uri).1.bind (·.body) := by
    unfold Cache.body?
    rw [c.cache.known?_seen_self]
  unfold fetch
  dsimp only
  cases hkept : (c.cache.get now c.uri).1.bind (·.body) with
  | some body => exact ⟨_, _, .of_unsent _ c client _, .kept body (hbody.trans hkept)⟩
  | none =>
    have hnone := hbody.trans hkept
    -- The entry is looked up once more before the request is sent.
    let c' : Collection := { c with cache := c.cache.seen now c.uri }
    obtain ⟨kept, sent, ⟨hcollection, hlog⟩, hsends⟩ := c'.send_cases client now c.uri .get none
    change Sends ((c.cache.seen now c.uri).get now c.uri).2 now _ kept sent _ at hsends
    rw [c.cache.get_seen] at hsends
    change ∃ kept sent,
      (((c'.send client now c.uri .get none).andThen _).map some).Leaves c client kept sent ∧
        Deals c _ now kept
          ⟨_, sent, (((c'.send client now c.uri .get none).andThen _).map some).result⟩
    unfold Exchange.andThen Exchange.map
    cases hresult : (c'.send client now c.uri .get none).result with
    | error error =>
      rw [hresult] at hsends
      exact ⟨kept, sent, ⟨hcollection, hlog⟩, .unsuccessful .fetch (fun _ => hnone) hsends⟩
    | ok response =>
      rw [hresult] at hsends
      refine ⟨_, sent, ⟨?_, hlog⟩, .fetched hsends⟩
      dsimp only
      rw [hcollection]

theorem perform_cases (call : Call) :
    ∃ kept sent, (c.perform client now call).Leaves c client kept sent ∧
      Deals c (c.cache.seen now (c.address call)) now kept
        ⟨call, sent, (c.perform client now call).result⟩ := by
  cases call with
  | fetch =>
    have h := c.fetch_cases client now
    exact h
  | create fields =>
    have h := c.write_cases client now (.create fields) rfl
    exact h
  | update key fields =>
    have h := c.write_cases client now (.update key fields) rfl
    exact h
  | delete key =>
    have h := c.write_cases client now (.delete key) rfl
    exact h

end Collection

namespace Session

/-- A call adds one dealing, and of the collection only what is kept changes. -/
theorem call_cases (s : Session) (step : Nat × Call) :
    ∃ kept d, (s.call step).collection = { s.collection with cache := kept } ∧
      (s.call step).dealings = s.dealings ++ [d] ∧ d.call = step.2 ∧
      s.collection.Deals (s.collection.cache.seen step.1 (s.collection.address step.2)) step.1
        kept d := by
  obtain ⟨kept, sent, hleaves, hdeals⟩ := s.collection.perform_cases s.client step.1 step.2
  refine ⟨kept, ⟨step.2, sent, _⟩, hleaves.collection, ?_, rfl, hdeals⟩
  unfold call
  dsimp only
  rw [hleaves.log, List.drop_left]

end Session

end IndexedStore.Http
