import IndexedStore.Proofs.RemoteCalls

/-!
The contents that a remote collection gives without asking. They are those of its latest
successful fetch, and nothing was written through the collection in between, whatever was driven
out, refused or has expired meanwhile.
-/
namespace IndexedStore

/-- Something happened, and from then on another thing held. -/
def Since {α : Type} (happened held : α → Prop) (past : List α) : Prop :=
  ∃ before x after, past = before ++ x :: after ∧ happened x ∧ ∀ y ∈ after, held y

def Throughout {α : Type} (P : List α → α → Prop) (xs : List α) : Prop :=
  ∀ past x rest, xs = past ++ x :: rest → P past x

section Histories

variable {α : Type} {happened held : α → Prop} {P : List α → α → Prop} {past : List α} {x : α}

/-- In a longer history an element is the last one or stood in the shorter one. -/
theorem split_snoc {before after : List α} {y : α} (h : past ++ [x] = before ++ y :: after) :
    (past = before ∧ x = y ∧ after = []) ∨
      ∃ rest, after = rest ++ [x] ∧ past = before ++ y :: rest := by
  induction after using List.reverseRecOn with
  | nil =>
    obtain ⟨hpast, hx⟩ := List.append_inj' h rfl
    exact Or.inl ⟨hpast, List.singleton_inj.mp hx, rfl⟩
  | append_singleton rest z _ =>
    rw [← List.cons_append, ← List.append_assoc] at h
    obtain ⟨hpast, hx⟩ := List.append_inj' h rfl
    exact Or.inr ⟨rest, by rw [List.singleton_inj.mp hx], hpast⟩

theorem not_since_nil : ¬ Since happened held [] := by
  rintro ⟨before, x, after, hpast, -⟩
  exact absurd hpast (by simp)

theorem since_snoc :
    Since happened held (past ++ [x]) ↔ happened x ∨ Since happened held past ∧ held x := by
  constructor
  · rintro ⟨before, y, after, hpast, hy, hafter⟩
    rcases split_snoc hpast with ⟨-, rfl, -⟩ | ⟨rest, rfl, hrest⟩
    · exact Or.inl hy
    · refine Or.inr ⟨⟨before, y, rest, hrest, hy, fun w hw => ?_⟩, ?_⟩
      · exact hafter w (List.mem_append_left _ hw)
      · exact hafter x (List.mem_append_right _ (List.mem_singleton_self x))
  · rintro (hx | ⟨⟨before, y, after, rfl, hy, hafter⟩, hx⟩)
    · exact ⟨past, x, [], rfl, hx, fun y hy => absurd hy List.not_mem_nil⟩
    · refine ⟨before, y, after ++ [x], by simp, hy, fun w hw => ?_⟩
      rcases List.mem_append.mp hw with hw | hw
      · exact hafter w hw
      · rwa [List.mem_singleton.mp hw]

theorem throughout_nil : Throughout P [] :=
  fun past x rest h => absurd h (by simp)

theorem throughout_snoc : Throughout P (past ++ [x]) ↔ Throughout P past ∧ P past x := by
  constructor
  · intro h
    refine ⟨fun before y rest hpast => h before y (rest ++ [x]) ?_, h past x [] rfl⟩
    rw [hpast, List.append_assoc, List.cons_append]
  · rintro ⟨h, hx⟩ before y rest hpast
    rcases split_snoc hpast with ⟨rfl, rfl, -⟩ | ⟨rest, -, hrest⟩
    · exact hx
    · exact h before y rest hrest

theorem Throughout.append_left {before after : List α} (h : Throughout P (before ++ after)) :
    Throughout P before := by
  intro past x rest hbefore
  apply h past x (rest ++ after)
  rw [hbefore, List.append_assoc, List.cons_append]

theorem Throughout.behind {before after : List α} (h : Throughout P (before ++ x :: after)) :
    Throughout (fun past => P (before ++ x :: past)) after := by
  intro past y rest hafter
  apply h (before ++ x :: past) y rest
  rw [hafter, List.append_assoc, List.cons_append]

end Histories

namespace Http

/-- A body is that of the latest successful fetch of an address, no other fetch was sent since,
and nothing was written. -/
def Current (uri : String) (past : List Dealing) (body : Json) : Prop :=
  Since (fun d => ∃ response, d.Fetched uri response ∧ response.body = body)
    (fun d => ¬ d.Asked .get uri ∧ ¬ d.Wrote) past

theorem Sends.body?_of_kept {cache kept : Cache} {now : Nat} {request : Request}
    {sent : List (Request × Except String Response)} {result : Except StoreError Response}
    {uri : String} {body : Json} (h : Sends cache now request kept sent result)
    (hbody : kept.body? uri = some body) : cache.body? uri = some body := by
  cases h with
  | refused => exact Cache.body?_of_deny hbody
  | barred | unanswered | failed | answered => exact hbody

/-- A call keeps only a body that is current after it. -/
theorem Collection.Deals.current {c : Collection} {cache kept : Cache} {now : Nat} {d : Dealing}
    {past : List Dealing} (h : c.Deals cache now kept d)
    (hcache : ∀ body, cache.body? c.uri = some body → Current c.uri past body) :
    ∀ body, kept.body? c.uri = some body → Current c.uri (past ++ [d]) body := by
  intro body hbody
  cases h with
  | kept given _ =>
    refine since_snoc.mpr (Or.inr ⟨hcache body hbody, ?_, ?_⟩)
    · rintro ⟨exchange, hexchange, -⟩
      exact absurd hexchange List.not_mem_nil
    · exact fun hwrote => absurd hwrote.1 (by simp [Call.isWrite])
  | unsuccessful call hnone hsends =>
    have hbefore := hsends.body?_of_kept hbody
    refine since_snoc.mpr (Or.inr ⟨hcache body hbefore, ?_, ?_⟩)
    · -- A fetch is sent only when no body is kept, and a failure keeps none that was not.
      rintro ⟨exchange, hexchange, hmethod, -⟩
      rw [hsends.request_eq exchange hexchange] at hmethod
      have hgone := hnone (Call.eq_fetch_of_method hmethod)
      exact absurd (hbefore.symm.trans hgone) (by simp)
    · rintro ⟨-, x, hx⟩
      exact absurd hx (by simp)
  | fetched hsends =>
    obtain ⟨rfl, rfl, hsuccess⟩ := hsends.of_ok
    rw [Cache.body?_put] at hbody
    obtain rfl := Option.some.inj hbody
    refine since_snoc.mpr (Or.inl ⟨_, ⟨⟨_, List.mem_singleton_self _, rfl, rfl⟩, hsuccess⟩, rfl⟩)
  | written call _ hsends =>
    rw [Cache.body?_invalidate] at hbody
    exact absurd hbody (by simp)

/-- A fetch for which nothing was sent was given a body that was kept. -/
theorem Collection.Deals.body?_of_unsent {c : Collection} {cache kept : Cache} {now : Nat}
    {d : Dealing} {body : Json} (h : c.Deals cache now kept d)
    (hd : d = ⟨.fetch, [], .ok (some body)⟩) : cache.body? c.uri = some body := by
  cases h with
  | kept given hbody =>
    simp only [Dealing.mk.injEq, Except.ok.injEq, Option.some.injEq, true_and] at hd
    rwa [← hd]
  | unsuccessful => exact absurd (congrArg Dealing.result hd) (by simp)
  | fetched hsends =>
    obtain ⟨-, rfl, -⟩ := hsends.of_ok
    exact absurd (congrArg Dealing.sent hd) (by simp)
  | written => exact absurd (congrArg Dealing.result hd) (by simp)

namespace Session

/-- Every body kept for the contents is current, and so was every one that was given. -/
structure Truthful (s : Session) (uri : String) : Prop where
  address : s.collection.uri = uri
  kept : ∀ body, s.collection.cache.body? uri = some body → Current uri s.dealings body
  given : Throughout (fun past d => ∀ body, d = ⟨.fetch, [], .ok (some body)⟩ →
    Current uri past body) s.dealings

theorem Truthful.call {s : Session} {uri : String} (h : s.Truthful uri) (step : Nat × Call) :
    (s.call step).Truthful uri := by
  obtain ⟨rfl, hkept, hgiven⟩ := h
  obtain ⟨cache, d, hcollection, hdealings, -, hdeals⟩ := s.call_cases step
  have hseen : ∀ body, (s.collection.cache.seen step.1 (s.collection.address step.2)).body?
      s.collection.uri = some body → Current s.collection.uri s.dealings body :=
    fun body hbody => hkept body (Cache.body?_of_seen hbody)
  refine ⟨by rw [hcollection], fun body hbody => ?_, ?_⟩
  · rw [hcollection] at hbody
    rw [hdealings]
    exact hdeals.current hseen body hbody
  · rw [hdealings]
    exact throughout_snoc.mpr
      ⟨hgiven, fun body hd => hseen body (hdeals.body?_of_unsent hd)⟩

theorem truthful_after {s : Session} {uri : String} (h : s.Truthful uri)
    (steps : List (Nat × Call)) : (s.after steps).Truthful uri := by
  induction steps generalizing s with
  | nil => exact h
  | cons step steps ih => exact ih (h.call step)

theorem truthful_start {c : Collection} {capacity lifetime : Nat}
    (hcache : c.cache = .empty capacity lifetime) (client : Client) :
    (start c client).Truthful c.uri := by
  refine ⟨rfl, fun body hbody => ?_, throughout_nil⟩
  have hnone : (start c client).collection.cache.body? c.uri = none := by
    unfold start
    rw [hcache]
    rfl
  exact absurd (hbody.symm.trans hnone) (by simp)

/-- Whenever a collection gives its contents without sending a request, they are those of its
latest successful fetch, and no record was created, updated or deleted since. This is so for any
client, any capacity and lifetime of what is kept, and any times of the calls. -/
theorem fetched_after_calls {c : Collection} {capacity lifetime : Nat}
    (hcache : c.cache = .empty capacity lifetime) (client : Client) (steps : List (Nat × Call))
    {past rest : List Dealing} {body : Json}
    (hdealings : ((start c client).after steps).dealings =
      past ++ ⟨.fetch, [], .ok (some body)⟩ :: rest) :
    Current c.uri past body :=
  (truthful_after (truthful_start hcache client) steps).given past _ rest hdealings body rfl

def readOnly : Script :=
  [((.get, "/people"), .ok ⟨200, [], .array []⟩), ((.post, "/people"), .ok ⟨403, [], .null⟩)]

def people (capacity : Nat) : Collection := ⟨"/people", [], .empty capacity 60⟩

def readOnlyCalls : List (Nat × Call) := [(0, .fetch), (1, .create []), (2, .fetch)]

def readOnlyDealings : List Dealing :=
  [⟨.fetch, [(⟨.get, "/people", none, []⟩, .ok ⟨200, [], .array []⟩)], .ok (some (.array []))⟩,
    ⟨.create [], [(⟨.post, "/people", some (.object []), []⟩, .ok ⟨403, [], .null⟩)],
      .error (.forbidden "/people")⟩]

theorem fetched_after_readOnly :
    ((start (people 1) (readOnly.client [])).after readOnlyCalls).dealings =
        readOnlyDealings ++ [⟨.fetch, [], .ok (some (.array []))⟩] ∧
      Current "/people" readOnlyDealings (.array []) := by
  have hdealings : ((start (people 1) (readOnly.client [])).after readOnlyCalls).dealings =
    readOnlyDealings ++ [⟨.fetch, [], .ok (some (.array []))⟩] := rfl
  have hcache : (people 1).cache = .empty 1 60 := rfl
  exact ⟨hdealings, fetched_after_calls hcache (readOnly.client []) readOnlyCalls hdealings⟩

end Session
end Http
end IndexedStore
