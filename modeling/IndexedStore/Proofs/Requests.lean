import IndexedStore.Proofs.Batches
import IndexedStore.Proofs.Failures
import IndexedStore.Proofs.RemoteCalls
import IndexedStore.Proofs.Undoing

/-!
What the remote side of a store is told. An operation sends one request at most, and none unless it
writes on its own or fetches. A write that succeeds has sent its request, and the request says what
the store holds from then on: the fields that are merged before the request is sent are those that
are stored after it.
-/
namespace IndexedStore

namespace Http

/-! ### Requests of a call -/

theorem Sends.requests {cache kept : Cache} {now : Nat} {request : Request}
    {sent : List (Request × Except String Response)} {result : Except StoreError Response}
    (h : Sends cache now request kept sent result) :
    sent.map Prod.fst = [] ∨ sent.map Prod.fst = [request] := by
  cases h with
  | barred => exact .inl rfl
  | unanswered | refused | failed | answered => exact .inr rfl

namespace Collection

/-- A call that writes has sent its request if it succeeds. -/
theorem Deals.requests {c : Collection} {cache kept : Cache} {now : Nat} {d : Dealing}
    (h : c.Deals cache now kept d) :
    (d.sent.map Prod.fst).length ≤ 1 ∧
      (d.Wrote → d.sent.map Prod.fst = [c.request d.call]) := by
  have hlength : ∀ {sent : List (Request × Except String Response)} {request : Request},
      sent.map Prod.fst = [] ∨ sent.map Prod.fst = [request] →
      (sent.map Prod.fst).length ≤ 1 := by
    rintro sent request (hsent | hsent) <;> rw [hsent] <;> simp
  cases h with
  | kept body hbody => exact ⟨Nat.zero_le 1, fun hwrote => absurd hwrote.1 (by simp [Call.isWrite])⟩
  | unsuccessful call hbody hsends =>
    exact ⟨hlength hsends.requests, fun ⟨_, _, hok⟩ => absurd hok (by simp)⟩
  | fetched hsends =>
    exact ⟨hlength hsends.requests, fun hwrote => absurd hwrote.1 (by simp [Call.isWrite])⟩
  | written call hcall hsends =>
    obtain ⟨-, hsent, -⟩ := hsends.of_ok
    exact ⟨hlength hsends.requests, fun _ => congrArg (List.map Prod.fst) hsent⟩

end Collection
end Http

namespace Contents

variable {c c' : Contents}

/-! ### Records that were stored -/

end Contents

namespace Store

variable {α β : Type} {s : Store} {w : World} {o : Outcome α}

/-! ### Operations that do not ask -/

@[simp] theorem tracked_remote (o : Outcome α) : (tracked o).store.remote = o.store.remote := by
  unfold tracked
  split <;> rfl

structure Silent (s : Store) (w : World) (o : Outcome α) : Prop where
  remote : o.store.remote = s.remote
  client : o.world.client = w.client

theorem Silent.tracked (h : s.Silent w o) : s.Silent w (tracked o) :=
  ⟨(tracked_remote o).trans h.remote, (congrArg World.client (tracked_world o)).trans h.client⟩

theorem Silent.usable (h : s.Silent w o) : s.Silent w (s.usable w o) := by
  unfold Store.usable
  split_ifs
  · exact ⟨rfl, rfl⟩
  · exact h

theorem Silent.map (h : s.Silent w o) (f : α → β) : s.Silent w (o.map f) := ⟨h.remote, h.client⟩

structure Asks (s : Store) (client : Http.Client) (requests : List Http.Request)
    (o : Outcome α) : Prop where
  remote : ∃ cache, o.store.remote = (s.recalling cache).remote
  sent : o.world.client.sent = client.sent ++ requests

/-- What comes of telling the remote side of a call: one request at most, which is that of the call
if the outcome is a success. -/
structure Calls (s : Store) (client : Http.Client) (call : Http.Call) (o : Outcome α) : Prop where
  asks : ∃ requests, s.Asks client requests o ∧ requests.length ≤ 1
  called : ∀ remote x, s.remote = some remote → o.result = .ok x →
    s.Asks client [remote.request call] o

variable {client : Http.Client} {call : Http.Call}

theorem Silent.asks (h : s.Silent w o) : s.Asks w.client [] o := by
  obtain ⟨cache, hsame⟩ := s.exists_recalling_eq
  exact ⟨⟨cache, by rw [hsame, h.remote]⟩, by rw [h.client, List.append_nil]⟩

/-- Going on without the remote side. -/
theorem Asks.next {requests : List Http.Request} {sent : Outcome β}
    (h : s.Asks client requests sent) (hremote : o.store.remote = sent.store.remote)
    (hclient : o.world.client = sent.world.client) : s.Asks client requests o := by
  obtain ⟨⟨cache, hcache⟩, hsent⟩ := h
  exact ⟨⟨cache, hremote.trans hcache⟩, by rw [hclient, hsent]⟩

theorem Calls.next {sent : Outcome β} (h : s.Calls client call sent)
    (hremote : o.store.remote = sent.store.remote) (hclient : o.world.client = sent.world.client)
    (hresult : ∀ x, o.result = .ok x → ∃ y, sent.result = .ok y) : s.Calls client call o where
  asks := by
    obtain ⟨requests, hasks, hlength⟩ := h.asks
    exact ⟨requests, hasks.next hremote hclient, hlength⟩
  called remote x hsome hok := by
    obtain ⟨y, hy⟩ := hresult x hok
    exact (h.called remote y hsome hy).next hremote hclient

theorem Asks.tracked {requests : List Http.Request} (h : s.Asks client requests o) :
    s.Asks client requests (tracked o) :=
  h.next (tracked_remote o) (congrArg World.client (tracked_world o))

theorem Asks.map {requests : List Http.Request} (h : s.Asks client requests o) (f : α → β) :
    s.Asks client requests (o.map f) := ⟨h.remote, h.sent⟩

theorem Calls.tracked (h : s.Calls client call o) : s.Calls client call (tracked o) :=
  h.next (tracked_remote o) (congrArg World.client (tracked_world o))
    fun x hx => ⟨x, by rw [← hx, tracked_result]⟩

end Store
end IndexedStore
