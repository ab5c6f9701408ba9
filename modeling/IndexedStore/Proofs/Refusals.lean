import IndexedStore.Proofs.FetchedContents

/-!
Methods that an address refused. What is kept of an address says which methods it allows; while
nothing kept is lost, that is what the history of the dealings says. A refused method is not sent
again, unless the contents are fetched meanwhile and the answer does not say what is allowed.
-/
namespace IndexedStore.Http

namespace Dealing

def Refused (d : Dealing) (method : Method) (uri : String) : Prop :=
  ∃ response, d.Got method uri response ∧ response.Refuses

def Advertises (d : Dealing) (method : Method) (uri : String) : Prop :=
  ∃ asked response permissions, d.Got asked uri response ∧
    response.permissions? = some permissions ∧ permissions.allows method = true

def Concerns (d : Dealing) (c : Collection) (method : Method) (uri : String) : Prop :=
  d.call.method = method ∧ c.address d.call = uri

end Dealing

/-- The latest successful fetch of an address did not say what the address allows. -/
def Forgets (uri : String) (past : List Dealing) : Prop :=
  Since (fun d => ∃ response, d.Fetched uri response ∧ response.permissions? = none)
    (fun d => ∀ response, ¬ d.Fetched uri response) past

/-- A method was refused by an address, or a fetch said that it is not allowed, and the address
was not fetched since. -/
def Barred (method : Method) (uri : String) (past : List Dealing) : Prop :=
  Since (fun d => d.Refused method uri ∨ ∃ response, d.Fetched uri response ∧
      (response.permissions?.getD Permissions.all).allows method = false)
    (fun d => ∀ response, ¬ d.Fetched uri response) past

/-- No request of a method to an address is sent, and every call that stands for one is told that
the method is not allowed. -/
def StaysRefused (c : Collection) (method : Method) (uri : String) (later : List Dealing) : Prop :=
  ∀ d ∈ later, ¬ d.Asked method uri ∧
    (d.Concerns c method uri → d.result = .error (.methodNotAllowed uri method.name))

inductive Follows (c : Collection) (past : List Dealing) : Dealing → Prop
  | kept (body : Json) (h : Current c.uri past body) :
      Follows c past ⟨.fetch, [], .ok (some body)⟩
  | barred (call : Call) (h : Barred call.method (c.address call) past) :
      Follows c past
        ⟨call, [], .error (.methodNotAllowed (c.address call) call.method.name)⟩
  | sent (call : Call) (h : ¬ Barred call.method (c.address call) past)
      (answer : Except String Response) (result : Except StoreError (Option Json)) :
      Follows c past ⟨call, [(c.request call, answer)], result⟩

/-! ### What the history of the dealings says -/

section Histories

variable {c : Collection} {past : List Dealing} {d : Dealing} {method : Method} {uri : String}
  {response : Response}

theorem Permissions.all_allows (method : Method) : Permissions.all.allows method = true := by
  cases method <;> rfl

/-- A request that was sent is the one its call stands for. -/
theorem Follows.concerns (h : Follows c past d) (hasked : d.Asked method uri) :
    d.Concerns c method uri ∧ ¬ Barred method uri past := by
  obtain ⟨exchange, hexchange, hmethod, huri⟩ := hasked
  cases h with
  | kept | barred => exact absurd hexchange List.not_mem_nil
  | sent call hbarred =>
    rw [List.mem_singleton.mp hexchange] at hmethod huri
    obtain rfl : call.method = method := hmethod
    obtain rfl : c.address call = uri := huri
    exact ⟨⟨rfl, rfl⟩, hbarred⟩

/-- One call gets one answer at most. -/
theorem Follows.got_unique (h : Follows c past d) {method' : Method} {uri' : String}
    {response' : Response} (hgot : d.Got method uri response)
    (hgot' : d.Got method' uri' response') : response = response' := by
  obtain ⟨request, hrequest, -⟩ := hgot
  obtain ⟨request', hrequest', -⟩ := hgot'
  cases h with
  | kept | barred => exact absurd hrequest List.not_mem_nil
  | sent =>
    have heq := (List.mem_singleton.mp hrequest).trans (List.mem_singleton.mp hrequest').symm
    exact Except.ok.inj (congrArg Prod.snd heq)

theorem Follows.not_fetched (h : Follows c past d) (hrefused : d.Refused method uri) :
    ∀ response, ¬ d.Fetched uri response := by
  rintro response ⟨hgot, hsuccess⟩
  obtain ⟨refusal, hrefusal, hrefuses⟩ := hrefused
  rw [h.got_unique hgot hrefusal, hrefuses.not_isSuccess] at hsuccess
  exact absurd hsuccess (by simp)

theorem barred_snoc_of_fetched {before : List Dealing} (h : Follows c before d)
    (hfetched : d.Fetched uri response) :
    Barred method uri (past ++ [d]) ↔
      (response.permissions?.getD Permissions.all).allows method = false := by
  unfold Barred
  rw [since_snoc]
  constructor
  · rintro ((hrefused | ⟨other, hother, hallows⟩) | ⟨-, hnone⟩)
    · exact absurd hfetched (h.not_fetched hrefused response)
    · rwa [h.got_unique hfetched.1 hother.1]
    · exact absurd hfetched (hnone response)
  · exact fun hallows => Or.inl (Or.inr ⟨response, hfetched, hallows⟩)

theorem forgets_snoc_of_fetched {before : List Dealing} (h : Follows c before d)
    (hfetched : d.Fetched uri response) :
    Forgets uri (past ++ [d]) ↔ response.permissions? = none := by
  unfold Forgets
  rw [since_snoc]
  constructor
  · rintro (⟨other, hother, hsilent⟩ | ⟨-, hnone⟩)
    · rwa [h.got_unique hfetched.1 hother.1]
    · exact absurd hfetched (hnone response)
  · exact fun hsilent => Or.inl ⟨response, hfetched, hsilent⟩

theorem barred_snoc_of_not_fetched (hfetched : ∀ response, ¬ d.Fetched uri response) :
    Barred method uri (past ++ [d]) ↔ d.Refused method uri ∨ Barred method uri past := by
  unfold Barred
  rw [since_snoc]
  simp only [hfetched, false_and, exists_false, or_false, not_false_eq_true, implies_true,
    and_true]

theorem forgets_snoc_of_not_fetched (hfetched : ∀ response, ¬ d.Fetched uri response) :
    Forgets uri (past ++ [d]) ↔ Forgets uri past := by
  unfold Forgets
  rw [since_snoc]
  simp only [hfetched, false_and, exists_false, false_or, not_false_eq_true, implies_true,
    and_true]

variable {between : List Dealing}

/-- After a refusal a method is barred until a fetch does not say what is allowed. -/
theorem barred_iff_not_forgets (hrefused : d.Refused method uri)
    (hfollows : Throughout (fun recent => Follows c (past ++ d :: recent)) between)
    (hquiet : ∀ x ∈ between, ¬ x.Asked method uri)
    (hnever : ∀ x ∈ between, ¬ x.Advertises method uri) :
    Barred method uri (past ++ d :: between) ↔ ¬ Forgets uri between := by
  induction between using List.reverseRecOn with
  | nil => exact iff_of_true (since_snoc.mpr (Or.inl (Or.inl hrefused))) not_since_nil
  | append_singleton between x ih =>
    obtain ⟨hfollows, hx⟩ := throughout_snoc.mp hfollows
    have hbefore := ih hfollows (fun y hy => hquiet y (List.mem_append_left _ hy))
      fun y hy => hnever y (List.mem_append_left _ hy)
    have hsplit : past ++ d :: (between ++ [x]) = (past ++ d :: between) ++ [x] := by simp
    have hlast : x ∈ between ++ [x] := List.mem_append_right _ (List.mem_singleton_self x)
    rw [hsplit]
    by_cases hfetched : ∃ response, x.Fetched uri response
    · obtain ⟨response, hfetched⟩ := hfetched
      rw [barred_snoc_of_fetched hx hfetched, forgets_snoc_of_fetched hx hfetched]
      cases hpermissions : response.permissions? with
      | none => simp [Permissions.all_allows]
      | some permissions =>
        have hallows : permissions.allows method ≠ true := fun hallows =>
          hnever x hlast ⟨_, response, permissions, hfetched.1, hpermissions, hallows⟩
        simpa using hallows
    · have hnone : ∀ response, ¬ x.Fetched uri response := fun r hr => hfetched ⟨r, hr⟩
      have hunrefused : ¬ x.Refused method uri := fun ⟨_, hgot, _⟩ => hquiet x hlast hgot.asked
      rw [barred_snoc_of_not_fetched hnone, forgets_snoc_of_not_fetched hnone, hbefore,
        or_iff_right hunrefused]

/-- What is kept of the contents after a fetch was refused was fetched after that. -/
theorem Current.asked_of_refused {body : Json} {before : List Dealing} (h : Follows c before d)
    (hrefused : d.Refused .get uri) (hcurrent : Current uri (past ++ d :: between) body) :
    ∃ x ∈ between, x.Asked .get uri := by
  induction between using List.reverseRecOn with
  | nil =>
    obtain ⟨refusal, hrefusal, -⟩ := id hrefused
    rcases since_snoc.mp hcurrent with ⟨response, hfetched, -⟩ | ⟨-, hasked, -⟩
    · exact absurd hfetched (h.not_fetched hrefused response)
    · exact absurd hrefusal.asked hasked
  | append_singleton between x ih =>
    have hsplit : past ++ d :: (between ++ [x]) = (past ++ d :: between) ++ [x] := by simp
    rw [hsplit] at hcurrent
    rcases since_snoc.mp hcurrent with ⟨response, hfetched, -⟩ | ⟨hbefore, -⟩
    · exact ⟨x, List.mem_append_right _ (List.mem_singleton_self x), hfetched.1.asked⟩
    · obtain ⟨y, hy, hasked⟩ := ih hbefore
      exact ⟨y, List.mem_append_left _ hy, hasked⟩

/-- A method that is not asked for again stays refused as long as no fetch in between is silent
about what is allowed. -/
theorem staysRefused_of_not_forgets {before : List Dealing} (h : Follows c before d)
    (hrefused : d.Refused method uri)
    (hfollows : Throughout (fun recent => Follows c (past ++ d :: recent)) between)
    (hnever : ∀ x ∈ between, ¬ x.Advertises method uri)
    (hforgets : Throughout (fun recent x => (∀ y ∈ recent, ¬ y.Asked method uri) →
      x.Concerns c method uri → ¬ Forgets uri recent) between) :
    StaysRefused c method uri between := by
  induction between using List.reverseRecOn with
  | nil => exact fun x hx => absurd hx List.not_mem_nil
  | append_singleton between x ih =>
    obtain ⟨hfollows, hx⟩ := throughout_snoc.mp hfollows
    obtain ⟨hforgets, hremembers⟩ := throughout_snoc.mp hforgets
    have hnever' : ∀ y ∈ between, ¬ y.Advertises method uri :=
      fun y hy => hnever y (List.mem_append_left _ hy)
    have hstays := ih hfollows hnever' hforgets
    have hquiet : ∀ y ∈ between, ¬ y.Asked method uri := fun y hy => (hstays y hy).1
    have hbarred := barred_iff_not_forgets hrefused hfollows hquiet hnever'
    intro y hy
    rcases List.mem_append.mp hy with hy | hy
    · exact hstays y hy
    · obtain rfl := List.mem_singleton.mp hy
      refine ⟨fun hasked => ?_, fun hconcerns => ?_⟩
      · obtain ⟨hconcerns, hpermitted⟩ := hx.concerns hasked
        exact hpermitted (hbarred.mpr (hremembers hquiet hconcerns))
      · have hbar := hbarred.mpr (hremembers hquiet hconcerns)
        obtain ⟨hmethod, huri⟩ := hconcerns
        cases hx with
        | kept body hcurrent =>
          obtain rfl : Method.get = method := hmethod
          obtain rfl : c.uri = uri := huri
          obtain ⟨z, hz, hasked⟩ := hcurrent.asked_of_refused h hrefused
          exact absurd hasked (hquiet z hz)
        | barred call =>
          obtain rfl : call.method = method := hmethod
          obtain rfl : c.address call = uri := huri
          rfl
        | sent call hpermitted =>
          obtain rfl : call.method = method := hmethod
          obtain rfl : c.address call = uri := huri
          exact absurd hbar hpermitted

theorem Forgets.asked (h : Forgets uri past) : ∃ x ∈ past, x.Asked .get uri := by
  obtain ⟨before, x, after, rfl, ⟨response, hfetched, -⟩, -⟩ := h
  exact ⟨x, List.mem_append_right _ List.mem_cons_self, hfetched.1.asked⟩

theorem not_forgets_of_staysRefused (hrefused : d.Refused method uri)
    (hfollows : Throughout (fun recent => Follows c (past ++ d :: recent)) between)
    (hnever : ∀ x ∈ between, ¬ x.Advertises method uri)
    (hstays : StaysRefused c method uri between) :
    Throughout (fun recent x => x.Concerns c method uri → ¬ Forgets uri recent) between := by
  rintro recent x rest rfl hconcerns hforgets
  have hrecent : ∀ y ∈ recent, y ∈ recent ++ x :: rest := fun y hy => List.mem_append_left _ hy
  have hquiet : ∀ y ∈ recent, ¬ y.Asked method uri := fun y hy => (hstays y (hrecent y hy)).1
  have hbarred := barred_iff_not_forgets hrefused hfollows.append_left hquiet
    fun y hy => hnever y (hrecent y hy)
  have hasked := (hstays x (List.mem_append_right _ List.mem_cons_self)).1
  have hx := hfollows recent x rest rfl
  obtain ⟨rfl, rfl⟩ := hconcerns
  cases hx with
  | kept =>
    obtain ⟨y, hy, hget⟩ := hforgets.asked
    exact hquiet y hy hget
  | barred call hbar => exact hbarred.mp hbar hforgets
  | sent call => exact hasked ⟨_, List.mem_singleton_self _, rfl, rfl⟩

end Histories

/-! ### What is kept agrees with the history -/

section Dealings

variable {c : Collection} {cache kept : Cache} {now : Nat} {d : Dealing} {past : List Dealing}
  {used : Finset String}

theorem refused_of_answered {call : Call} {request : Request} {given : Response}
    {result : Except StoreError (Option Json)} {method : Method} {uri : String} :
    (⟨call, [(request, .ok given)], result⟩ : Dealing).Refused method uri ↔
      given.Refuses ∧ request.method = method ∧ request.uri = uri := by
  constructor
  · rintro ⟨_, hgot, hrefuses⟩
    obtain ⟨rfl, hrequest⟩ := Dealing.got_of_answered.mp hgot
    exact ⟨hrefuses, hrequest⟩
  · rintro ⟨hrefuses, hrequest⟩
    exact ⟨given, Dealing.got_of_answered.mpr ⟨rfl, hrequest⟩, hrefuses⟩

theorem Collection.Deals.follows (h : c.Deals cache now kept d)
    (hbefore : ∀ method uri, cache.permits uri method = false ↔ Barred method uri past)
    (hcurrent : ∀ body, cache.body? c.uri = some body → Current c.uri past body) :
    Follows c past d := by
  have hunbarred : ∀ call, cache.permits (c.address call) call.method = true →
      ¬ Barred call.method (c.address call) past := fun call hpermits hbar =>
    Bool.false_ne_true (((hbefore _ _).mpr hbar).symm.trans hpermits)
  cases h with
  | kept body hbody => exact .kept body (hcurrent body hbody)
  | unsuccessful call _ hsends =>
    cases hsends with
    | barred hpermits => exact .barred call ((hbefore _ _).mp hpermits)
    | unanswered hpermits | refused hpermits | failed hpermits =>
      exact .sent call (hunbarred call hpermits) _ _
  | fetched hsends =>
    cases hsends with
    | answered hpermits => exact .sent .fetch (hunbarred .fetch hpermits) _ _
  | written call _ hsends =>
    cases hsends with
    | answered hpermits => exact .sent call (hunbarred call hpermits) _ _

/-- A request without success takes away the method that was refused, if any. -/
theorem Sends.permits_of_error {request : Request}
    {sent : List (Request × Except String Response)} {error : StoreError} {call : Call}
    {result : Except StoreError (Option Json)}
    (h : Sends cache now request kept sent (.error error)) (hholds : cache.Holds now)
    (hwithin : cache.Within used) (hused : request.uri ∈ used) (method : Method) (uri : String) :
    (∀ response, ¬ (⟨call, sent, result⟩ : Dealing).Fetched uri response) ∧
      (kept.permits uri method = false ↔
        (⟨call, sent, result⟩ : Dealing).Refused method uri ∨
          cache.permits uri method = false) := by
  cases h with
  | barred =>
    refine ⟨fun _ hfetched => Dealing.not_got_of_unsent hfetched.1, ?_⟩
    rw [or_iff_right fun ⟨_, hgot, _⟩ => Dealing.not_got_of_unsent hgot]
  | unanswered =>
    refine ⟨fun _ hfetched => Dealing.not_got_of_unanswered hfetched.1, ?_⟩
    rw [or_iff_right fun ⟨_, hgot, _⟩ => Dealing.not_got_of_unanswered hgot]
  | failed _ given _ hrefuses hfault =>
    rw [refused_of_answered, or_iff_right fun hrefused => hrefuses hrefused.1]
    refine ⟨fun response hfetched => ?_, Iff.rfl⟩
    obtain ⟨⟨rfl, -⟩, hsuccess⟩ := Dealing.fetched_of_answered.mp hfetched
    exact Bool.false_ne_true (hfault.symm.trans hsuccess)
  | refused _ given _ hrefuses =>
    constructor
    · intro response hfetched
      obtain ⟨⟨rfl, -⟩, hsuccess⟩ := Dealing.fetched_of_answered.mp hfetched
      exact Bool.false_ne_true (hrefuses.not_isSuccess.symm.trans hsuccess)
    · have hmethod : (method != request.method) = false ↔ request.method = method := by
        rw [bne_eq_false_iff_eq, eq_comm]
      rw [refused_of_answered]
      unfold Cache.permits
      rw [hwithin.granted_deny hholds hused]
      split_ifs with huri
      · rw [Permissions.allows_without, huri, Bool.and_eq_false_iff, hmethod, or_comm,
          and_iff_left rfl, and_iff_right hrefuses]
      · rw [or_iff_right fun hrefused => huri hrefused.2.2.symm]

theorem Collection.Deals.barred_iff (h : c.Deals cache now kept d) (hholds : cache.Holds now)
    (hwithin : cache.Within used) (hused : c.address d.call ∈ used)
    (hbefore : ∀ method uri, cache.permits uri method = false ↔ Barred method uri past)
    (hfollows : Follows c past d) (method : Method) (uri : String) :
    kept.permits uri method = false ↔ Barred method uri (past ++ [d]) := by
  cases h with
  | kept =>
    rw [hbefore, barred_snoc_of_not_fetched fun _ hfetched => Dealing.not_got_of_unsent hfetched.1,
      or_iff_right fun ⟨_, hgot, _⟩ => Dealing.not_got_of_unsent hgot]
  | unsuccessful call _ hsends =>
    obtain ⟨hfetched, hpermits⟩ := hsends.permits_of_error hholds hwithin hused method uri
    rw [hpermits, hbefore, barred_snoc_of_not_fetched hfetched]
  | fetched hsends =>
    obtain ⟨rfl, rfl, hsuccess⟩ := hsends.of_ok
    have hcontents : c.uri ∈ used := hused
    unfold Cache.permits
    rw [hwithin.granted_put hcontents]
    split_ifs with huri
    · have haddress : (c.request .fetch).uri = uri := huri.symm
      rw [barred_snoc_of_fetched hfollows
        (Dealing.fetched_of_answered.mpr ⟨⟨rfl, rfl, haddress⟩, hsuccess⟩)]
    · have hother : ¬ (c.request .fetch).uri = uri := Ne.symm huri
      rw [barred_snoc_of_not_fetched fun _ hfetched =>
          hother (Dealing.fetched_of_answered.mp hfetched).1.2.2,
        refused_of_answered, or_iff_right fun hrefused => hother hrefused.2.2, ← hbefore]
      rfl
  | written call hcall hsends =>
    obtain ⟨rfl, rfl, hsuccess⟩ := hsends.of_ok
    have hmethod : (c.request call).method ≠ .get := Call.method_ne_get hcall
    unfold Cache.permits
    rw [hwithin.granted_invalidate hholds,
      barred_snoc_of_not_fetched fun _ hfetched =>
        hmethod (Dealing.fetched_of_answered.mp hfetched).1.2.1,
      refused_of_answered, or_iff_right fun hrefused =>
        Bool.false_ne_true (hrefused.1.not_isSuccess.symm.trans hsuccess), ← hbefore]
    rfl

theorem Sends.within {request : Request} {sent : List (Request × Except String Response)}
    {result : Except StoreError Response} (h : Sends cache now request kept sent result)
    (hwithin : cache.Within used) (hused : request.uri ∈ used) : kept.Within used := by
  cases h with
  | refused => exact hwithin.deny hused now _
  | barred | unanswered | failed | answered => exact hwithin

theorem Collection.Deals.within (h : c.Deals cache now kept d) (hwithin : cache.Within used)
    (hused : c.address d.call ∈ used) : kept.Within used := by
  cases h with
  | kept => exact hwithin
  | unsuccessful _ _ hsends => exact hsends.within hwithin hused
  | fetched hsends => exact (hsends.within hwithin hused).put hused now _ _
  | written _ _ hsends => exact (hsends.within hwithin hused).invalidate now _

theorem Follows.of_cache (h : Follows { c with cache := cache } past d) : Follows c past d := by
  cases h with
  | kept body hcurrent => exact .kept body hcurrent
  | barred call hbar => exact .barred call hbar
  | sent call hbar answer result => exact @Follows.sent c past call hbar answer result

end Dealings

namespace Session

def Lasting (s : Session) : List (Nat × Call) → Prop
  | [] => True
  | step :: steps => s.collection.cache.Holds step.1 ∧ (s.call step).Lasting steps

instance decidableLasting : (s : Session) → (steps : List (Nat × Call)) →
    Decidable (s.Lasting steps)
  | _, [] => isTrue trivial
  | s, step :: steps =>
    have := decidableLasting (s.call step) steps
    inferInstanceAs (Decidable (s.collection.cache.Holds step.1 ∧ (s.call step).Lasting steps))

/-- The collection in use is this one, it has lost nothing of what it learnt, and every call did
what the history before it asks for. -/
structure Remembers (s : Session) (c : Collection) (used : Finset String) : Prop where
  collection : ∃ cache, s.collection = { c with cache := cache }
  truthful : s.Truthful c.uri
  within : s.collection.cache.Within used
  barred : ∀ method uri,
    s.collection.cache.permits uri method = false ↔ Barred method uri s.dealings
  follows : Throughout (Follows c) s.dealings

variable {s : Session} {c : Collection} {used : Finset String}

theorem Remembers.call (h : s.Remembers c used) {step : Nat × Call}
    (hholds : s.collection.cache.Holds step.1) (hused : c.address step.2 ∈ used) :
    (s.call step).Remembers c used := by
  have htruthful := h.truthful.call step
  obtain ⟨⟨cache, hcache⟩, ⟨-, hcurrent, -⟩, hwithin, hbarred, hfollows⟩ := h
  obtain ⟨kept, d, hcollection, hdealings, hcall, hdeals⟩ := s.call_cases step
  rw [hcache] at hcollection hdeals hholds hwithin hbarred hcurrent
  rw [← hcall] at hused
  have hseen : ∀ method uri, (cache.seen step.1 (c.address step.2)).permits uri method = false ↔
      Barred method uri s.dealings := by
    intro method uri
    rw [← hbarred, Cache.permits, hholds.granted_seen]
    rfl
  have hwithin := hwithin.seen step.1 (c.address step.2)
  have hholds := hholds.seen (c.address step.2)
  have hd := hdeals.follows hseen fun body hbody => hcurrent body (Cache.body?_of_seen hbody)
  refine ⟨⟨kept, hcollection⟩, htruthful, ?_, fun method uri => ?_, ?_⟩
  · rw [hcollection]
    exact hdeals.within hwithin hused
  · rw [hcollection, hdealings]
    exact hdeals.barred_iff hholds hwithin hused hseen hd method uri
  · rw [hdealings]
    exact throughout_snoc.mpr ⟨hfollows, hd.of_cache⟩

theorem remembers_after (h : s.Remembers c used) {steps : List (Nat × Call)}
    (hlasting : s.Lasting steps) (hused : ∀ step ∈ steps, c.address step.2 ∈ used) :
    (s.after steps).Remembers c used := by
  induction steps generalizing s with
  | nil => exact h
  | cons step steps ih =>
    obtain ⟨hholds, hlasting⟩ := hlasting
    refine ih (h.call hholds (hused step List.mem_cons_self)) hlasting ?_
    exact fun later hlater => hused later (List.mem_cons_of_mem step hlater)

theorem remembers_start {capacity lifetime : Nat} (hcache : c.cache = .empty capacity lifetime)
    (client : Client) (hroom : used.card ≤ max capacity 1) :
    (start c client).Remembers c used := by
  obtain ⟨contents, headers, _⟩ := c
  obtain rfl := hcache
  refine ⟨⟨_, rfl⟩, truthful_start rfl client, ?_, fun method uri => ?_, throughout_nil⟩
  · exact ⟨List.nodup_nil, fun key hkey => absurd hkey List.not_mem_nil, hroom⟩
  · refine iff_of_false (fun hbarred => ?_) not_since_nil
    exact Bool.false_ne_true (hbarred.symm.trans (Permissions.all_allows method))

/-- Let a method be refused by an address, let no entry that is kept expire and let there be room
for all the addresses in use, and let the address never answer again that it allows the method.
Then the method stays refused exactly if no later call comes when the latest fetch of the address
since the refusal did not say what the address allows. The contents are the only address that is
fetched, so a refusal by any other address stays, and so does that of a fetch. -/
theorem refused_after_calls {capacity lifetime : Nat}
    (hcache : c.cache = .empty capacity lifetime) {client : Client} {steps : List (Nat × Call)}
    (hlasting : (start c client).Lasting steps)
    (hroom : (steps.map fun step => c.address step.2).toFinset.card ≤ max capacity 1)
    {before later : List Dealing} {d : Dealing} {method : Method} {uri : String}
    (hdealings : ((start c client).after steps).dealings = before ++ d :: later)
    (hrefused : d.Refused method uri) (hnever : ∀ x ∈ later, ¬ x.Advertises method uri) :
    (StaysRefused c method uri later ↔ ∀ between x rest, later = between ++ x :: rest →
        x.Concerns c method uri → ¬ Forgets uri between) ∧
      (uri ≠ c.uri ∨ method = .get → StaysRefused c method uri later) := by
  have hremembers := remembers_after (remembers_start hcache client hroom) hlasting
    fun step hstep => List.mem_toFinset.mpr (List.mem_map_of_mem hstep)
  have hfollows := hremembers.follows
  rw [hdealings] at hfollows
  have hd := hfollows before d later rfl
  have hlater := hfollows.behind
  refine ⟨⟨not_forgets_of_staysRefused hrefused hlater hnever, fun hremembered => ?_⟩, ?_⟩
  · apply staysRefused_of_not_forgets hd hrefused hlater hnever
    exact fun between x rest hrest _ => hremembered between x rest hrest
  · intro hother
    apply staysRefused_of_not_forgets hd hrefused hlater hnever
    rintro between x rest rfl hquiet - hforgets
    obtain ⟨y, hy, hasked⟩ := hforgets.asked
    rcases hother with hother | rfl
    · obtain ⟨recent, rest', rfl⟩ := List.append_of_mem hy
      have hyfollows := hlater.append_left recent y rest' rfl
      obtain ⟨⟨hmethod, huri⟩, -⟩ := hyfollows.concerns hasked
      rw [Call.eq_fetch_of_method hmethod] at huri
      exact hother huri.symm
    · exact hquiet y hy hasked

theorem not_advertises_of_silent {call : Call} {request : Request} {response : Response}
    {result : Except StoreError (Option Json)} {method : Method} {uri : String}
    (hsilent : response.permissions? = none) :
    ¬ (⟨call, [(request, .ok response)], result⟩ : Dealing).Advertises method uri := by
  rintro ⟨_, given, permissions, hgot, hpermissions, -⟩
  obtain ⟨rfl, -⟩ := Dealing.got_of_answered.mp hgot
  exact absurd (hsilent.symm.trans hpermissions) (by simp)

def protecting : Script :=
  [((.get, "/people"), .ok ⟨200, [], .array []⟩), ((.delete, "/people/1"), .ok ⟨405, [], .null⟩)]

def deletedTwice : List (Nat × Call) := [(0, .delete "1"), (1, .fetch), (2, .delete "1")]

def undeleted : Dealing :=
  ⟨.delete "1", [(⟨.delete, "/people/1", none, []⟩, .ok ⟨405, [], .null⟩)],
    .error (.methodNotAllowed "/people/1" "DELETE")⟩

def fetchedPeople : Dealing :=
  ⟨.fetch, [(⟨.get, "/people", none, []⟩, .ok ⟨200, [], .array []⟩)], .ok (some (.array []))⟩

def deletedAgain : Dealing := ⟨.delete "1", [], .error (.methodNotAllowed "/people/1" "DELETE")⟩

theorem refused_after_protecting :
    ((start (people 2) (protecting.client [])).after deletedTwice).dealings =
        [undeleted, fetchedPeople, deletedAgain] ∧
      undeleted.Refused .delete "/people/1" ∧
      StaysRefused (people 2) .delete "/people/1" [fetchedPeople, deletedAgain] := by
  have hcache : (people 2).cache = .empty 2 60 := rfl
  have hdealings : ((start (people 2) (protecting.client [])).after deletedTwice).dealings =
    [] ++ undeleted :: [fetchedPeople, deletedAgain] := rfl
  have hlasting : (start (people 2) (protecting.client [])).Lasting deletedTwice := by decide
  have hroom : (deletedTwice.map fun step => (people 2).address step.2).toFinset.card ≤
    max 2 1 := by decide
  have hrefused : undeleted.Refused .delete "/people/1" :=
    ⟨_, ⟨_, List.mem_singleton_self _, rfl, rfl⟩, Or.inr (Or.inr rfl)⟩
  have hnever : ∀ x ∈ [fetchedPeople, deletedAgain], ¬ x.Advertises .delete "/people/1" := by
    intro x hx
    rcases List.mem_pair.mp hx with rfl | rfl
    · exact not_advertises_of_silent rfl
    · exact fun ⟨_, _, _, hgot, _⟩ => Dealing.not_got_of_unsent hgot
  have hother : "/people/1" ≠ (people 2).uri := by decide
  exact ⟨hdealings, hrefused, (refused_after_calls hcache hlasting hroom hdealings hrefused
    hnever).2 (Or.inl hother)⟩

def createdTwice : List (Nat × Call) := [(0, .create []), (1, .fetch), (2, .create [])]

def uncreated : Dealing :=
  ⟨.create [], [(⟨.post, "/people", some (.object []), []⟩, .ok ⟨403, [], .null⟩)],
    .error (.forbidden "/people")⟩

/-- A create that was refused is sent again after a fetch: the answer to the fetch does not say
what is allowed, and takes the place of what was known. -/
theorem refused_forgotten_readOnly :
    (start (people 1) (readOnly.client [])).Lasting createdTwice ∧
      (createdTwice.map fun step => (people 1).address step.2).toFinset.card ≤ 1 ∧
      ((start (people 1) (readOnly.client [])).after createdTwice).dealings =
        [uncreated, fetchedPeople, uncreated] ∧
      uncreated.Refused .post "/people" ∧
      (∀ x ∈ [fetchedPeople, uncreated], ¬ x.Advertises .post "/people") ∧
      ¬ StaysRefused (people 1) .post "/people" [fetchedPeople, uncreated] := by
  have hasked : uncreated.Got .post "/people" ⟨403, [], .null⟩ :=
    ⟨_, List.mem_singleton_self _, rfl, rfl⟩
  refine ⟨by decide, by decide, rfl, ⟨_, hasked, Or.inr (Or.inl rfl)⟩, fun x hx => ?_, ?_⟩
  · rcases List.mem_pair.mp hx with rfl | rfl
    · exact not_advertises_of_silent rfl
    · exact not_advertises_of_silent rfl
  · exact fun hstays => (hstays uncreated (by simp)).1 hasked.asked

end Session

end IndexedStore.Http
