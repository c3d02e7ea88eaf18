/-
  Capacity: how many tokens there can be.

  A fork asks whether there is room for one more token, and nothing else does.  What else adds
  tokens goes on in the place of something that has ended: a fallback in that of the left side,
  votes in that of the body of a section, publications in that of the votes.  So a token is added
  where a region has become DESERTED, and one for one, but for the sections: several cohorts vote,
  and several publications are let go.

  * `Engine.demand`   the tokens, the deserted regions and what is about to come into regions;
  * `Engine.excess`   by how much the next turn may exceed that, because of a section;
  * `token_ceiling`   the ceiling holds but for the excess.
-/
import Mathlib.Data.Finset.Card
import Orchestra.Proofs.Batches
import Orchestra.Proofs.Remains
import Orchestra.Proofs.Time

namespace Orchestra

open Engine List

variable {ω : Type} {m : Charter} {e e' : Engine ω} {host : Host ω} {a : Chore} {x : TxnId}
  {k : Continuation} {e₁ : Engine ω} {agenda new rest : List Chore} {next : Nat} {p : Progress ω}
  {reg : Region} {c r r₀ : RegionId} {site : Site} {tok : Token} {id : TokenId} {txn : Transaction}

/-! ## Demand -/

namespace Engine

/-- The region into which a chore is to bring tokens.  A section that is decided brings none. -/
def coming (e : Engine ω) : Chore → Option RegionId
  | .prepare x => ((e.transactions.get? x).filter fun txn => txn.state = .running).map
      fun txn => txn.continuation.region
  | .verify x => ((e.transactions.get? x).filter fun txn => txn.state = .readying).map
      fun txn => txn.continuation.region
  | .release k _ => some k.region
  | _ => none

/-- The regions into which tokens are to come, once for each chore that brings some. -/
def arrivals (e : Engine ω) : List RegionId := e.agenda.filterMap e.coming

/-- A publication has just left the region, and goes on outside. -/
def Escaping (e : Engine ω) (r : RegionId) : Prop := ∃ t n, e.agenda = [.quiesce r, .proceed t n]

/-- Nothing is in the region, or all that is has ended already, and nothing is to come. -/
structure Deserted (e : Engine ω) (r : RegionId) : Prop where
  empty : ∃ reg, e.regions.get? r = some reg ∧ reg.tokens = [] ∧
    ∀ c ∈ reg.children, .detach r c ∈ e.agenda
  unawaited : r ∉ e.arrivals
  stays : ¬e.Escaping r

open Classical in
/-- The deserted regions. -/
noncomputable def deserted (e : Engine ω) : Finset RegionId :=
  {r ∈ e.regions.keys.toFinset | e.Deserted r}

theorem mem_deserted : r ∈ e.deserted ↔ e.Deserted r := by
  classical
  unfold deserted
  rw [Finset.mem_filter, mem_toFinset, and_iff_right_iff_imp]
  rintro ⟨⟨reg, hr, -⟩, -, -⟩
  unfold Store.keys
  rw [mem_filter, mem_map]
  exact ⟨⟨r.index, mem_range.2 (Store.lt_next hr), rfl⟩, Store.contains_iff.2 ⟨reg, hr⟩⟩

/-- The tokens that there are, and those that may yet come without a fork: one into each deserted
    region, and one for each arrival. -/
noncomputable def demand (e : Engine ω) : Nat :=
  e.tokens.size + e.deserted.card + e.arrivals.length

/-- By how many tokens the next turn may exceed the demand: a section asks for votes, or lets
    publications go, all at once. -/
def excess (e : Engine ω) : Nat :=
  match e.agenda with
  | .prepare x :: _ => match e.transactions.get? x with
    | some txn => if txn.state = .running then txn.cohorts.length - 1 else 0
    | none => 0
  | .verify x :: _ => match e.transactions.get? x with
    | some txn => if txn.state = .readying then txn.publications.length - 1 else 0
    | none => 0
  | _ => 0

theorem coming_of_calm (h : a.urgent = false) : e.coming a = e'.coming a := by
  cases a <;> first | rfl | cases h

theorem arrivals_congr (hagenda : e'.agenda = e.agenda)
    (htxns : e'.transactions = e.transactions) : e'.arrivals = e.arrivals := by
  unfold arrivals coming
  rw [hagenda, htxns]

theorem arrivals_plan (new : List Chore) :
    (e.plan new).arrivals = new.filterMap e.coming ++ e.arrivals :=
  filterMap_append

/-- Chores that can wait bring the same tokens in every state. -/
theorem arrivals_append (rest : List Chore) (h : e'.agenda = new ++ rest)
    (hcalm : ∀ a ∈ rest, a.urgent = false) :
    e'.arrivals = new.filterMap e'.coming ++ rest.filterMap e.coming := by
  grind [filterMap_congr, coming_of_calm, arrivals]

end Engine

/-! ## Chores -/

/-- What is let go comes into a region that counts something which has ended, for as long. -/
def Seated : List Chore → Prop
  | [] => True
  | .release k _ :: rest => (∃ c, .detach k.region c ∈ rest) ∧ Seated rest
  | _ :: rest => Seated rest

namespace Seated

theorem append (hnew : ∀ k v, .release k v ∉ new) (h : Seated rest) : Seated (new ++ rest) := by
  induction new with
  | nil => exact h
  | cons a new ih =>
    have hrest := ih fun k v hm => hnew k v (mem_cons_of_mem _ hm)
    cases a with
    | release k v => exact absurd mem_cons_self (hnew k v)
    | _ => exact hrest

theorem of_none (h : ∀ k v, .release k v ∉ agenda) : Seated agenda := by
  have happend : Seated (agenda ++ []) := append h trivial
  rwa [append_nil] at happend

theorem tail (h : Seated (a :: rest)) : Seated rest := by
  cases a with
  | release k v => exact h.2
  | _ => exact h

theorem releases (vs : List Value) (hc : .detach k.region c ∈ rest) (h : Seated rest) :
    Seated (vs.map (.release k) ++ rest) := by
  induction vs with
  | nil => exact h
  | cons v vs ih => exact ⟨⟨c, mem_append_right _ hc⟩, ih⟩

theorem detach_of_release (h : Seated agenda) {v : Value} (hm : .release k v ∈ agenda) :
    ∃ c, .detach k.region c ∈ agenda := by
  induction agenda with
  | nil => cases hm
  | cons a rest ih =>
    rcases mem_cons.1 hm with rfl | hm
    · obtain ⟨c, hc⟩ := h.1
      exact ⟨c, mem_cons_of_mem _ hc⟩
    · grind [tail]

theorem perform (h : Seated (e.plan [a]).agenda) (hc : Coherent m (e.plan [a]))
    (he' : e.perform host a = .ok e') : Seated e'.agenda := by
  have hrest : Seated e.agenda := tail h
  by_cases hverify : ∃ x, a = .verify x
  · obtain ⟨x, rfl⟩ := hverify
    cases performed he' with
    | unverified => exact hrest
    | verifyLate => exact hrest
    | verify hx =>
      obtain ⟨c, hm⟩ := hc.seated (.inr mem_cons_self) hx
      exact releases _ ((mem_cons.1 hm).resolve_left nofun) hrest
  · obtain ⟨new, hagenda, hplans⟩ := perform_plans he'
    rw [hagenda]
    refine append (fun k v hm => ?_) hrest
    cases hplans _ hm with
    | release => exact hverify ⟨_, rfl⟩

theorem turn (h : Seated e.agenda) (hc : Coherent m e) {p : Progress ω}
    (hp : e.turn host = .ok p) : Seated p.state.agenda := by
  cases turned hp with
  | chore he he' =>
    subst he
    exact h.perform hc he'
  | done | skip => exact h
  | @step t tok ready node e' ha hh hready ht hphase hnode he' =>
    obtain ⟨mail, notices, hf⟩ := hc.footprint ha ht hphase he'
    exact of_none fun k v hm => hf.follows _ hm
  | @message message inbox ha hh hready hinbox =>
    refine of_none fun k v hm => ?_
    rcases receive_agenda message hm with hm | ⟨t, heq⟩ | ⟨x, heq⟩
    · rw [show e.agenda = [] from ha] at hm
      cases hm
    · cases heq
    · cases heq
  | idle ha =>
    rw [idle_agenda]
    exact h

end Seated

/-! ### Deserted regions -/

namespace Engine

/-- A region that is deserted after a turn was so before, if nothing has left it and nothing that
    was to come has come. -/
theorem Deserted.back (h : e'.Deserted r)
    (hregion : ∀ {reg'}, e'.regions.get? r = some reg' → reg'.tokens = [] →
      (∀ c ∈ reg'.children, .detach r c ∈ e'.agenda) →
      ∃ reg, e.regions.get? r = some reg ∧ reg.tokens = [] ∧
        ∀ c ∈ reg.children, .detach r c ∈ e.agenda) (harrivals : r ∈ e.arrivals → r ∈ e'.arrivals)
    (hstays : ¬e.Escaping r) : e.Deserted r := by
  obtain ⟨⟨reg', hr', htokens, hchildren⟩, hno, -⟩ := h
  exact ⟨hregion hr' htokens hchildren, fun hr => hno (harrivals hr), hstays⟩

theorem deserted_card_le (h : ∀ r, e'.Deserted r → e.Deserted r) :
    e'.deserted.card ≤ e.deserted.card :=
  Finset.card_le_card fun r hr => mem_deserted.2 (h r (mem_deserted.1 hr))

theorem deserted_card_le_insert (h : ∀ r, e'.Deserted r → r = r₀ ∨ e.Deserted r) :
    e'.deserted.card ≤ e.deserted.card + 1 := by
  refine (Finset.card_le_card fun r hr => ?_).trans (Finset.card_insert_le r₀ e.deserted)
  grind [mem_deserted]

theorem deserted_card_lt_erase (hr₀ : e.Deserted r₀)
    (h : ∀ r, e'.Deserted r → r ≠ r₀ ∧ e.Deserted r) : e'.deserted.card + 1 ≤ e.deserted.card := by
  have hmem : r₀ ∈ e.deserted := mem_deserted.2 hr₀
  rw [← Finset.card_erase_add_one hmem]
  refine Nat.succ_le_succ (Finset.card_le_card fun r hr => ?_)
  grind [mem_deserted]

/-- One region has gone, and at most one more has become deserted. -/
theorem deserted_card_le_swap {o : Option RegionId} (hr₀ : e.Deserted r₀)
    (h : ∀ r, e'.Deserted r → r ≠ r₀ ∧ (o = some r ∨ e.Deserted r)) :
    e'.deserted.card ≤ e.deserted.card := by
  cases o with
  | none => simp_all [deserted_card_le]
  | some p =>
    have hmem : r₀ ∈ e.deserted := mem_deserted.2 hr₀
    rw [← Finset.card_erase_add_one hmem]
    refine (Finset.card_le_card fun r hr => ?_).trans (Finset.card_insert_le p _)
    grind [mem_deserted]

/-- Only a chore to react can find a region that was left on the way out. -/
theorem not_escaping (h : ∀ r, a ≠ .quiesce r) (r : RegionId) : ¬(e.plan [a]).Escaping r := by
  rintro ⟨t, n, hagenda⟩
  exact h r (List.cons.inj hagenda).1

/-- A chore put before others that can wait fills no region, and empties one only by taking
    something off its count. -/
theorem Deserted.of_plan (h : (e.plan [a]).Deserted r) (ha : ∀ p c, a ≠ .detach p c)
    (hcalm : ∀ b ∈ e.agenda, b.urgent = false) : e.Deserted r := by
  refine h.back (fun hr htokens hchildren => ⟨_, hr, htokens, fun c hc => ?_⟩) ?_ ?_
  · grind [plan]
  · grind [arrivals_plan]
  · rintro ⟨t, n, hagenda⟩
    have hurgent := hcalm (.quiesce r) (by rw [hagenda]; exact mem_cons_self)
    cases hurgent

end Engine

section Chores

section

variable (hc : Coherent m (e.plan [a])) (new : List Chore)

include hc

/-- A chore that adds no token, ends none and empties no region leaves the demand as it is. -/
theorem Engine.demand_quiet (hsize : e'.tokens.size = e.tokens.size)
    (hregions : ∀ {r reg'}, e'.regions.get? r = some reg' → ∃ reg, e.regions.get? r = some reg ∧
      reg'.tokens = reg.tokens ∧ reg'.children = reg.children)
    (hagenda : e'.agenda = new ++ e.agenda)
    (hnew : ∀ b ∈ new, e'.coming b = none ∧ ∀ p c, b ≠ .detach p c) (ha : e.coming a = none)
    (hgone : ∀ r, a = .quiesce r → e.regions.get? r = none) : e'.demand ≤ (e.plan [a]).demand := by
  have hbefore : (e.plan [a]).arrivals = e.arrivals := by
    rw [arrivals_plan, filterMap_cons, ha]
    rfl
  have hafter : e'.arrivals = e.arrivals := by
    rw [arrivals_append (e := e) e.agenda hagenda fun b hb => hc.urgent b hb,
      filterMap_eq_nil_iff.2 fun b hb => (hnew b hb).1]
    rfl
  have hdeserted : ∀ r, e'.Deserted r → (e.plan [a]).Deserted r := by
    intro r hr
    refine hr.back (fun hr' htokens hchildren => ?_) ?_ ?_
    · grind [plan]
    · rw [hbefore, hafter]
      exact id
    · rintro ⟨t, n, hescaping⟩
      obtain ⟨⟨reg', hr', -⟩, -⟩ := hr
      grind [plan]
  have hcard := deserted_card_le hdeserted
  grind [demand, plan]

/-- A token ends, and at most its region becomes deserted. -/
theorem Engine.demand_killToken {t : TokenId} (ha : a = .killToken t)
    (ht : e.tokens.get? t = some tok) (htokens : e'.tokens = e.tokens.remove t)
    (hregions : ∀ r ≠ tok.region, e'.regions.get? r = e.regions.get? r)
    (hagenda : e'.agenda = new ++ e.agenda) (hnew : ∀ b ∈ new, b = .quiesce tok.region) :
    e'.demand ≤ (e.plan [a]).demand := by
  subst ha
  have hafter : e'.arrivals = e.arrivals := by
    rw [arrivals_append (e := e) e.agenda hagenda fun b hb => hc.urgent b hb,
      filterMap_eq_nil_iff.2 fun b hb => by rw [hnew b hb]; rfl]
    rfl
  have hdeserted : ∀ r, e'.Deserted r → r = tok.region ∨ (e.plan [.killToken t]).Deserted r := by
    intro r hr
    by_cases heq : r = tok.region
    · exact .inl heq
    · refine .inr (hr.back (fun hr' htokens hchildren => ?_) ?_ ?_)
      · grind [plan]
      · rw [hafter]
        exact id
      · exact not_escaping (by simp) r
  have hcard := deserted_card_le_insert hdeserted
  have hsize := Store.size_remove ht
  have hbefore : (e.plan [.killToken t]).arrivals = e.arrivals := rfl
  grind [demand, plan]

/-- A region that is gone is taken off the count of the one around it. -/
theorem Engine.demand_detach {p : RegionId} (ha : a = .detach p c) (htokens : e'.tokens = e.tokens)
    (hregions : e'.regions = e.regions.modify p (Region.disown c))
    (hagenda : e'.agenda = new ++ e.agenda) (hnew : ∀ b ∈ new, b = .quiesce p) :
    e'.demand ≤ (e.plan [a]).demand := by
  subst ha
  have hafter : e'.arrivals = e.arrivals := by
    rw [arrivals_append (e := e) e.agenda hagenda fun b hb => hc.urgent b hb,
      filterMap_eq_nil_iff.2 fun b hb => by rw [hnew b hb]; rfl]
    rfl
  have hdeserted : ∀ r, e'.Deserted r → (e.plan [.detach p c]).Deserted r := by
    intro r hr
    refine hr.back (fun {reg'} hr' htokens hchildren => ?_) ?_ ?_
    · grind [Option.map_eq_some_iff, plan]
    · rw [hafter]
      exact id
    · exact not_escaping (by simp) r
  have hcard := deserted_card_le hdeserted
  have hbefore : (e.plan [.detach p c]).arrivals = e.arrivals := rfl
  grind [demand, plan]

end

/-- A token that is added keeps its region from being deserted, and no other one becomes so. -/
theorem Engine.spawn_deserted (hs : e.spawn tok = some (id, e')) :
    e'.tokens.size = e.tokens.size + 1 ∧ e'.agenda = e.agenda ∧
      e'.transactions = e.transactions ∧ ∀ r, e'.Deserted r → r ≠ tok.region ∧ e.Deserted r := by
  obtain ⟨-, -, ⟨reg, hreg, -⟩, he'⟩ := spawn_eq_some hs
  have hagenda : e'.agenda = e.agenda := by rw [he']
  have htxns : e'.transactions = e.transactions := by rw [he']
  have hsize : e'.tokens.size = e.tokens.size + 1 := by rw [he']; rfl
  have hregions : e'.regions = e.regions.modify tok.region (Region.seat e.tokens.next) := by rw [he']
  refine ⟨hsize, hagenda, htxns, fun r hr => ?_⟩
  have hne : r ≠ tok.region := by
    rintro rfl
    obtain ⟨⟨reg', hr', htokens, -⟩, -⟩ := hr
    rw [hregions, Store.get?_modify, if_pos rfl, hreg] at hr'
    cases hr'
    have hmem : e.tokens.next ∈ joined reg.tokens e.tokens.next := mem_joined.2 (.inr rfl)
    grind
  refine ⟨hne, hr.back (fun hr' htokens hchildren => ?_) ?_ ?_⟩
  · grind
  · rw [arrivals_congr hagenda htxns]
    exact fun hm => hm
  · intro hescaping
    refine hr.stays ?_
    unfold Escaping
    rw [hagenda]
    exact hescaping

/-- A token is added to its region, or it is refused and all stays as it is. -/
theorem Engine.spawnReady_deserted (e : Engine ω) (tok : Token) :
    (e.spawnReady tok).arrivals = e.arrivals ∧
      ((e.spawnReady tok).tokens.size = e.tokens.size + 1 ∧
        (∀ r, (e.spawnReady tok).Deserted r → r ≠ tok.region ∧ e.Deserted r) ∨
      e.spawnReady tok = e) := by
  unfold spawnReady
  split
  · rename_i id e₁ hs
    obtain ⟨hsize, hagenda, htxns, hdeserted⟩ := spawn_deserted hs
    refine ⟨?_, .inl ⟨hsize, fun r hr => hdeserted r ⟨hr.empty, hr.unawaited, hr.stays⟩⟩⟩
    exact arrivals_congr hagenda htxns
  · exact ⟨rfl, .inr rfl⟩

/-- What comes has come, or it is refused and the region may be deserted. -/
theorem Engine.demand_release {v : Value} :
    (e.spawnReady (k.resume v)).demand ≤ (e.plan [.release k v]).demand := by
  have hbefore : (e.plan [.release k v]).arrivals = k.region :: e.arrivals := rfl
  have hdeserted : ∀ r, e.Deserted r → r = k.region ∨ (e.plan [.release k v]).Deserted r := by
    intro r hr
    by_cases heq : r = k.region
    · exact .inl heq
    · refine .inr (hr.back (fun hr' htokens hchildren => ?_) ?_ ?_)
      · grind [plan]
      · grind
      · exact not_escaping (by simp) r
  obtain ⟨harrivals, ⟨hsize, hspawned⟩ | hrefused⟩ := e.spawnReady_deserted (k.resume v)
  · have hcard : (e.spawnReady (k.resume v)).deserted.card ≤
        (e.plan [.release k v]).deserted.card :=
      deserted_card_le fun r hr => (hdeserted r (hspawned r hr).2).resolve_left (hspawned r hr).1
    grind [demand, plan]
  · have hcard := deserted_card_le_insert hdeserted
    grind [demand, plan]

/-! ### Sections -/

/-- Asking for votes brings no more tokens than there are cohorts; if it brings any, their region is
    not deserted. -/
theorem Engine.askVotes_deserted (host : Host ω) (scope : Scope) (vote : Token)
    (cohorts : List CohortId) :
    (askVotes host scope vote e cohorts).agenda = e.agenda ∧
    (askVotes host scope vote e cohorts).transactions = e.transactions ∧
    (((askVotes host scope vote e cohorts).tokens.size = e.tokens.size ∧
        ∀ r, (askVotes host scope vote e cohorts).Deserted r → e.Deserted r) ∨
      (e.tokens.size < (askVotes host scope vote e cohorts).tokens.size ∧
        (askVotes host scope vote e cohorts).tokens.size ≤ e.tokens.size + cohorts.length ∧
        ∀ r, (askVotes host scope vote e cohorts).Deserted r →
          r ≠ vote.region ∧ e.Deserted r)) := by
  induction cohorts generalizing e with
  | nil => exact ⟨rfl, rfl, .inl ⟨rfl, fun _ => id⟩⟩
  | cons c cohorts ih =>
    unfold askVotes
    split
    · grind
    · rename_i id e₁ hs
      obtain ⟨hsize, hagenda₁, htxns₁, hdeserted₁⟩ := spawn_deserted hs
      have hdeserted₁ : ∀ r, (e₁.absorb (host.ready c scope id e₁.world)).2.Deserted r →
          r ≠ vote.region ∧ e.Deserted r :=
        fun r hr => hdeserted₁ r ⟨hr.empty, hr.unawaited, hr.stays⟩
      obtain ⟨hagenda, htxns, ⟨hsame, hdeserted⟩ | ⟨hmore, hmost, hdeserted⟩⟩ :=
        ih (e := (e₁.absorb (host.ready c scope id e₁.world)).2)
      · refine ⟨hagenda.trans hagenda₁, htxns.trans htxns₁, .inr ⟨?_, ?_, ?_⟩⟩
        · rw [hsame]
          show _ < e₁.tokens.size
          omega
        · rw [hsame]
          show e₁.tokens.size ≤ _
          rw [hsize, length_cons]
          omega
        · exact fun r hr => hdeserted₁ r (hdeserted r hr)
      · have hmore : e₁.tokens.size < _ := hmore
        have hmost : _ ≤ e₁.tokens.size + cohorts.length := hmost
        refine ⟨hagenda.trans hagenda₁, htxns.trans htxns₁, .inr ⟨?_, ?_, ?_⟩⟩
        · omega
        · rw [length_cons]
          omega
        · exact fun r hr => hdeserted₁ r (hdeserted r hr).2

/-- What a section is about to bring counts as an arrival. -/
theorem Engine.arrivals_stage (hx : e.transactions.get? x = some txn)
    (ha : a = .prepare x ∧ txn.state = .running ∨ a = .verify x ∧ txn.state = .readying) :
    (e.plan [a]).arrivals = txn.continuation.region :: e.arrivals := by
  rw [arrivals_plan, filterMap_cons]
  rcases ha with ⟨rfl, hstate⟩ | ⟨rfl, hstate⟩
  · simp_all [Option.filter_some, coming]
  · simp_all [Option.filter_some, coming]

theorem Engine.arrivals_next (hx : e.transactions.get? x = some txn)
    (ha : a = .prepare x ∨ a = .verify x) :
    (e.plan [a]).arrivals = txn.continuation.region :: e.arrivals ∨
      (e.plan [a]).arrivals = e.arrivals := by grind [arrivals_plan, coming]

/-- The votes come in the place of the body. -/
theorem Engine.demand_prepare (hc : Coherent m (e.plan [.prepare x])) {preg : Region}
    (hx : e.transactions.get? x = some txn) (hstate : txn.state = .running)
    (hp : e.regions.get? txn.continuation.region = some preg) :
    (e.polled host x txn).demand ≤ (e.plan [.prepare x]).demand + (txn.cohorts.length - 1) := by
  unfold polled
  have hbefore := arrivals_stage hx (.inl ⟨rfl, hstate⟩)
  have hcalm : ∀ b ∈ e.agenda, b.urgent = false := fun b hb => hc.urgent b hb
  have hopened : (e.openVotes x txn).arrivals = e.arrivals :=
    filterMap_congr fun b hb => coming_of_calm (hcalm b hb)
  -- the region of the votes is new, and keeps the one around it from being deserted
  have hdeserted : ∀ r, (e.openVotes x txn).Deserted r →
      r = e.regions.next ∨ (e.plan [.prepare x]).Deserted r := by
    intro r hr
    have hne : r ≠ txn.continuation.region := by
      rintro rfl
      obtain ⟨⟨reg', hr', -, hchildren⟩, -⟩ := hr
      have hr' : ((e.regions.insert _).modify _ _).get? _ = some reg' := hr'
      rw [Store.get?_insert_modify hp] at hr'
      cases hr'
      have hpending := hchildren e.regions.next (mem_joined.2 (.inr rfl))
      obtain ⟨-, preg', hp', hmem⟩ :=
        hc.core.census.gone (mem_detaches.2 (mem_cons_of_mem _ hpending))
      exact Nat.lt_irrefl _ (hc.core.census.known hp' hmem)
    by_cases hnew : r = e.regions.next
    · exact .inl hnew
    · refine .inr (hr.back (fun {reg'} hr' htokens hchildren => ?_) ?_ ?_)
      · have hr' : ((e.regions.insert _).modify _ _).get? r = some reg' := hr'
        rw [Store.get?_modify, if_neg hne, Store.get?_insert, if_neg hnew] at hr'
        exact ⟨reg', hr', htokens, fun c hc' => mem_cons_of_mem _ (hchildren c hc')⟩
      · grind
      · exact not_escaping (by simp) r
  obtain ⟨hagenda, htxns, hvotes⟩ := askVotes_deserted (e := e.openVotes x txn) host txn.scope
    (txn.vote x e.regions.next) txn.cohorts
  generalize askVotes host txn.scope (txn.vote x e.regions.next) (e.openVotes x txn)
    txn.cohorts = e₁ at hagenda htxns hvotes ⊢
  have harrivals : (e₁.plan [.settle e.regions.next]).arrivals = e.arrivals :=
    (arrivals_congr hagenda htxns).trans hopened
  have hsettle : ∀ r, (e₁.plan [.settle e.regions.next]).Deserted r → e₁.Deserted r :=
    fun r hr => hr.of_plan nofun fun b hb => hcalm b (hagenda ▸ hb)
  have hsize₀ : (e.openVotes x txn).tokens.size = e.tokens.size := rfl
  have hsize₁ : (e₁.plan [.settle e.regions.next]).tokens.size = e₁.tokens.size := rfl
  have hsize₂ : (e.plan [.prepare x]).tokens.size = e.tokens.size := rfl
  unfold demand
  rw [harrivals, hbefore, length_cons, hsize₁, hsize₂]
  rcases hvotes with ⟨hsame, hkept⟩ | ⟨hmore, hmost, hkept⟩
  · have hcard := deserted_card_le_insert fun r hr => hdeserted r (hkept r (hsettle r hr))
    omega
  · have hcard : (e₁.plan [.settle e.regions.next]).deserted.card ≤
        (e.plan [.prepare x]).deserted.card := by
      refine deserted_card_le fun r hr => ?_
      obtain ⟨hne, hr⟩ := hkept r (hsettle r hr)
      exact (hdeserted r hr).resolve_left hne
    omega

/-- The publications come in the place of the votes. -/
theorem Engine.demand_verify (hc : Coherent m (e.plan [.verify x]))
    (hx : e.transactions.get? x = some txn) (hstate : txn.state = .readying) :
    (e.concluded host x txn).demand ≤
        (e.plan [.verify x]).demand + (txn.publications.length - 1) := by
  have hbefore := arrivals_stage hx (.inr ⟨rfl, hstate⟩)
  have hafter : (e.concluded host x txn).arrivals =
        txn.publications.map (fun _ => txn.continuation.region) ++ e.arrivals := by
    rw [arrivals_append (e := e) e.agenda rfl fun b hb => hc.urgent b hb, filterMap_cons]
    show List.filterMap _ _ ++ e.arrivals = _
    rw [filterMap_map]
    exact congrArg (· ++ _) (congrFun filterMap_eq_map' _)
  generalize hA : e.concluded host x txn = e₁ at hafter ⊢
  have hagenda : e₁.agenda =
      .retire x :: txn.publications.map (.release txn.continuation) ++ e.agenda := by
    rw [← hA]
    rfl
  have hregions : e₁.regions = e.regions := by rw [← hA]; rfl
  have hsize : e₁.tokens.size = e.tokens.size := by rw [← hA]; rfl
  have hother : ∀ r, e₁.Deserted r → r ≠ txn.continuation.region →
      (e.plan [.verify x]).Deserted r := by
    intro r hr hne
    refine hr.back (fun hr' htokens hchildren => ?_) ?_ ?_
    · refine ⟨_, hregions ▸ hr', htokens, fun c hc' => ?_⟩
      have hm := hchildren c hc'
      rw [hagenda] at hm
      rcases mem_append.1 hm with hm | hm
      · simp at hm
      · exact mem_cons_of_mem _ hm
    · grind
    · exact not_escaping (by simp) r
  have hsize₂ : (e.plan [.verify x]).tokens.size = e.tokens.size := rfl
  unfold demand
  rw [hafter, hbefore, length_append, length_map, length_cons, hsize, hsize₂]
  cases hpublications : txn.publications with
  | nil =>
    have hcard := deserted_card_le_insert fun r hr => or_iff_not_imp_left.2 (hother r hr)
    rw [length_nil]
    omega
  | cons v vs =>
    have hcard : e₁.deserted.card ≤ (e.plan [.verify x]).deserted.card := by
      refine deserted_card_le fun r hr => hother r hr ?_
      grind [Deserted.unawaited, mem_cons_self]
    rw [length_cons]
    omega

/-! ### Reactions -/

/-- What is empty is in no region into which something is to come. -/
theorem Engine.unawaited_of_quiesce (hc : Coherent m (e.plan [.quiesce r]))
    (hseat : Seated e.agenda) (hr : e.regions.get? r = some reg) (hchildren : reg.children = []) :
    r ∉ e.arrivals := by
  intro hm
  obtain ⟨b, hb, hcoming⟩ := mem_filterMap.1 hm
  cases b with
  | release k v =>
    cases hcoming
    obtain ⟨c, hdetach⟩ := hseat.detach_of_release hb
    obtain ⟨-, preg, hp, hmem⟩ :=
      hc.core.census.gone (mem_detaches.2 (mem_cons_of_mem _ hdetach))
    grind [plan]
  | prepare | verify => cases hc.urgent _ hb
  | _ => cases hcoming

/-- When a region is gone, at most the one around it has become deserted. -/
theorem Engine.Deserted.of_removed {q : RegionId} (h : (e.removed r reg).Deserted q) :
    q ≠ r ∧ (∃ reg', e.regions.get? q = some reg' ∧ reg'.tokens = []) ∧
      (reg.parent = some q ∨ (e.plan [.quiesce r]).Deserted q) := by
  have hregion : ∀ {q}, (e.removed r reg).regions.get? q = (e.regions.remove r).get? q := rfl
  have hne : q ≠ r := by
    rintro rfl
    obtain ⟨⟨reg', hr', -⟩, -⟩ := h
    rw [hregion, Store.get?_remove_self] at hr'
    cases hr'
  have hregion : (e.removed r reg).regions.get? q = e.regions.get? q :=
    Store.get?_remove_of_ne _ hne
  obtain ⟨reg', hr', htokens, -⟩ := h.empty
  refine ⟨hne, ⟨reg', hregion ▸ hr', htokens⟩, or_iff_not_imp_left.2 fun hparent => ?_⟩
  refine h.back (fun hr' htokens hchildren => ?_) (fun hm => ?_) ?_
  · refine ⟨_, hregion ▸ hr', htokens, fun c hc => mem_cons_of_mem _ ?_⟩
    rcases mem_append.1 (hchildren c hc) with hm | hm
    · grind [Option.map_eq_some_iff]
    · exact hm
  · unfold removed
    rw [arrivals_plan]
    exact mem_append_right _ hm
  · rintro ⟨t, n, hagenda⟩
    cases (List.cons.inj hagenda).1
    exact hne rfl

theorem Engine.removed_arrivals (r : RegionId) (reg : Region) :
    (e.removed r reg).arrivals = e.arrivals := by
  unfold removed Region.farewell
  rw [arrivals_plan]
  cases reg.parent <;> rfl

section

variable (hc : Coherent m (e.plan [.quiesce r]))

include hc

theorem Engine.removed_calm (reg : Region) : ∀ b ∈ (e.removed r reg).agenda, b.urgent = false := by
  intro b hb
  rcases mem_append.1 hb with hb | hb
  · obtain ⟨p, -, rfl⟩ := Option.map_eq_some_iff.1 (Option.mem_toList.1 hb)
    rfl
  · exact hc.urgent b hb

/-- What leaves a region and goes on outside is in the region around it. -/
theorem Engine.demand_escaping (hr : e.regions.get? r = some reg)
    (hescaping : (e.plan [.quiesce r]).Escaping r) :
    ((e.removed r reg).react reg.kind).demand ≤ (e.plan [.quiesce r]).demand := by
  obtain ⟨t, n, hagenda⟩ := hescaping
  obtain ⟨tok, ht, hcases⟩ : ∃ tok, e.tokens.get? t = some tok ∧ _ :=
    hc.errand (t := t) (n := n) (by rw [hagenda]; simp)
  rw [hagenda] at hcases
  rcases hcases with heq | ⟨r', reg', k, heq, hr', hkind, hparent⟩ | ⟨_, heq⟩
  · cases heq
  · cases heq
    have hr' : e.regions.get? r = some reg' := hr'
    rw [hr] at hr'
    cases hr'
    have hcard : (e.removed r reg).deserted.card ≤ (e.plan [.quiesce r]).deserted.card := by
      refine deserted_card_le fun q hq => ?_
      obtain ⟨-, ⟨qreg, hq, htokens⟩, hparent' | hq⟩ := hq.of_removed
      · rw [hparent] at hparent'
        cases hparent'
        obtain ⟨qreg', hq', hmem⟩ := hc.core.census.region_of ht
        grind [plan]
      · exact hq
    rw [hkind]
    show (e.removed r reg).demand ≤ _
    unfold demand
    rw [removed_arrivals]
    exact Nat.add_le_add_right (Nat.add_le_add_left hcard _) _
  · cases heq

/-- A region that is gone makes place for what it asks for. -/
theorem Engine.demand_quiesce (hseat : Seated e.agenda) (hr : e.regions.get? r = some reg) :
    ((e.removed r reg).react reg.kind).demand ≤ (e.plan [.quiesce r]).demand := by
  by_cases hescaping : (e.plan [.quiesce r]).Escaping r
  · exact demand_escaping hc hr hescaping
  have hlive_eq := hc.core.census.live_eq hr
  have hlive : reg.live = 0 := hc.quiet mem_cons_self hr
  have htokens : reg.tokens = [] := length_eq_zero_iff.1 (by omega)
  have hchildren : reg.children = [] := length_eq_zero_iff.1 (by omega)
  have hdeserted : (e.plan [.quiesce r]).Deserted r := by
    refine ⟨⟨reg, hr, htokens, fun c hc => ?_⟩, ?_, hescaping⟩
    · rw [hchildren] at hc
      cases hc
    · have hunawaited : r ∉ e.arrivals := unawaited_of_quiesce hc hseat hr hchildren
      exact hunawaited
  -- at worst the region around it is deserted in its place, unless something comes there
  have hswap : ∀ e₁ : Engine ω, (∀ q, e₁.Deserted q → (e.removed r reg).Deserted q) →
      e₁.deserted.card ≤ (e.plan [.quiesce r]).deserted.card := fun e₁ h =>
    deserted_card_le_swap hdeserted fun q hq => ⟨(h q hq).of_removed.1, (h q hq).of_removed.2.2⟩
  have hplace : ∀ e₁ : Engine ω,
      (∀ q, e₁.Deserted q → reg.parent ≠ some q ∧ (e.removed r reg).Deserted q) →
      e₁.deserted.card + 1 ≤ (e.plan [.quiesce r]).deserted.card := fun e₁ h =>
    deserted_card_lt_erase hdeserted fun q hq =>
      ⟨(h q hq).2.of_removed.1, (h q hq).2.of_removed.2.2.resolve_left (h q hq).1⟩
  have hcalm := removed_calm hc reg
  have harrivals : (e.removed r reg).arrivals = e.arrivals := removed_arrivals r reg
  have hbefore : (e.plan [.quiesce r]).demand =
      e.tokens.size + (e.plan [.quiesce r]).deserted.card + e.arrivals.length := rfl
  have hsection : ∀ {x a}, reg.kind = .transaction x ∧ a = .prepare x ∨
      reg.kind = .votes x ∧ a = .verify x →
      ((e.removed r reg).plan [a]).demand ≤ (e.plan [.quiesce r]).demand := by
    intro x a ha
    obtain ⟨txn, hx, hparent, -⟩ :=
      hc.core.aligned.atomic hr (ha.imp And.left And.left)
    have hx : (e.removed r reg).transactions.get? x = some txn := hx
    have hof : ∀ q, ((e.removed r reg).plan [a]).Deserted q → (e.removed r reg).Deserted q :=
      fun q hq => hq.of_plan (by rcases ha with ⟨-, rfl⟩ | ⟨-, rfl⟩ <;> nofun) hcalm
    have hsize : ((e.removed r reg).plan [a]).tokens.size = e.tokens.size := rfl
    rw [hbefore]
    unfold demand
    rw [hsize]
    rcases arrivals_next hx (ha.imp And.right And.right) with hnext | hnext
    · have hcard := hplace _ fun q hq => ⟨?_, hof q hq⟩
      · rw [hnext, harrivals, length_cons]
        omega
      · grind [Deserted.unawaited, mem_cons_self]
    · grind
  cases hkind : reg.kind with
  | root =>
    have hcard := hswap ((e.removed r reg).react .root) fun q hq =>
      ⟨hq.empty, hq.unawaited, hq.stays⟩
    rw [hbefore]
    show e.tokens.size + _ + (e.removed r reg).arrivals.length ≤ _
    rw [harrivals]
    omega
  | pruning c =>
    have hcard := hswap ((e.removed r reg).react (.pruning c)) fun q hq => hq.of_plan nofun hcalm
    rw [hbefore]
    show e.tokens.size + _ + (e.removed r reg).arrivals.length ≤ _
    rw [harrivals]
    omega
  | otherwise published k =>
    have hcard := hswap (e.removed r reg) fun q hq => hq
    have hstay : (e.removed r reg).demand ≤ (e.plan [.quiesce r]).demand := by
      rw [hbefore]
      show e.tokens.size + _ + (e.removed r reg).arrivals.length ≤ _
      rw [harrivals]
      omega
    cases published with
    | true => exact hstay
    | false =>
      obtain ⟨hparent, -⟩ := hc.core.aligned.otherwise hr hkind
      show ((e.removed r reg).spawnReady (k.resume .signal)).demand ≤ _
      obtain ⟨hnext, ⟨hsize, hspawned⟩ | hrefused⟩ :=
        (e.removed r reg).spawnReady_deserted (k.resume .signal)
      · have hcard := hplace _ fun q hq => ⟨?_, (hspawned q hq).2⟩
        · grind [demand, plan]
        · grind [Continuation.resume]
      · rw [hrefused]
        exact hstay
  | transaction x => exact hsection (.inl ⟨hkind, rfl⟩)
  | votes x => exact hsection (.inr ⟨hkind, rfl⟩)

end

/-- What a chore makes of the demand. -/
theorem Engine.perform_demand (hc : Coherent m (e.plan [a])) (hseat : Seated e.agenda)
    (he' : e.perform host a = .ok e') :
    e'.demand ≤ (e.plan [a]).demand + (e.plan [a]).excess := by
  have hquiet : ∀ {e₁ : Engine ω} (new : List Chore), e₁.tokens.size = e.tokens.size →
      e₁.regions = e.regions → e₁.agenda = new ++ e.agenda →
      (∀ b ∈ new, e₁.coming b = none ∧ ∀ p c, b ≠ .detach p c) → e.coming a = none →
      (∀ r, a = .quiesce r → e.regions.get? r = none) →
      e₁.demand ≤ (e.plan [a]).demand + (e.plan [a]).excess := by
    intro e₁ new hsize hregions hagenda hnew ha hgone
    refine Nat.le_trans (demand_quiet hc new hsize (fun hr => ?_) hagenda hnew ha hgone)
      (Nat.le_add_right ..)
    exact ⟨_, hregions ▸ hr, rfl, rfl⟩
  have hnone : ∀ {e₁ : Engine ω}, ∀ b ∈ ([] : List Chore),
      e₁.coming b = none ∧ ∀ p c, b ≠ .detach p c := by simp
  cases performed he' with
  | gone | settled | detached | dead | removed | removeGroup | asleep | retired | abortLate
  | rollback | enqueue => exact hquiet [] rfl rfl rfl hnone rfl (by simp)
  | wake | proceed => exact hquiet [] (Store.size_modify _) rfl rfl hnone rfl (by simp)
  | quiesced hr => exact hquiet [] rfl rfl rfl hnone rfl (by rintro _ ⟨⟩; exact hr)
  | killToken ht hr hmem hpos =>
    refine (demand_killToken hc _ rfl ht rfl (fun r hne => ?_) rfl ?_).trans (Nat.le_add_right ..)
    · exact (Store.get?_modify ..).trans (if_neg hne)
    · grind
  | quiesce hr => exact (demand_quiesce hc hseat hr).trans (Nat.le_add_right ..)
  | settle | closeNone | retire =>
    exact hquiet [_] rfl rfl rfl (by rintro _ (_ | ⟨_, ⟨⟩⟩); exact ⟨rfl, by simp⟩) rfl (by simp)
  | detach hp hpos =>
    refine Nat.le_trans (demand_detach hc _ rfl rfl rfl rfl ?_) (Nat.le_add_right ..)
    grind
  | closed =>
    refine hquiet _ rfl rfl rfl (fun b hb => ?_) rfl (by simp)
    obtain ⟨t, -, rfl⟩ := mem_map.1 hb
    exact ⟨rfl, by simp⟩
  | @close r reg pending doomed hr =>
    refine Nat.le_trans (demand_quiet hc _ rfl (fun {q reg'} hq => ?_) rfl ?_ rfl (by simp))
      (Nat.le_add_right ..)
    · grind [plan, onRegion]
    · rintro _ (_ | ⟨_, ⟨⟩⟩)
      exact ⟨rfl, by simp⟩
  | killGroup hg hk =>
    refine hquiet _ rfl rfl rfl (fun b hb => ?_) rfl (by simp)
    simp only [mem_append, mem_cons, mem_map] at hb
    rcases hb with (hb | ⟨_, -, rfl⟩) | rfl | ⟨_, -, rfl⟩
    · unfold abortFor at hb
      split at hb
      · cases mem_singleton.1 hb
        exact ⟨rfl, by simp⟩
      · cases hb
    · exact ⟨rfl, by simp⟩
    · exact ⟨rfl, by simp⟩
    · exact ⟨rfl, by simp⟩
  | unprepared hx | unverified hx =>
    exact hquiet [] rfl rfl rfl hnone (by simp [coming, hx]) (by simp)
  | prepareLate hx hstate | verifyLate hx hstate =>
    refine hquiet [_] rfl rfl rfl (by rintro _ (_ | ⟨_, ⟨⟩⟩); exact ⟨rfl, by simp⟩) ?_ (by simp)
    simp [coming, hx, Option.filter_some, hstate]
  | prepare hx hstate hp => grind [demand_prepare, excess, plan]
  | verify hx hstate => grind [demand_verify, excess, plan]
  | release => exact demand_release.trans (Nat.le_add_right ..)
  | abort hx hstate =>
    refine hquiet _ rfl rfl rfl (fun b hb => ?_) rfl (by simp)
    rcases mem_cons.1 hb with rfl | hb
    · exact ⟨rfl, by simp⟩
    · obtain ⟨c, -, rfl⟩ := mem_map.1 hb
      exact ⟨rfl, by simp⟩

end Chores

/-! ## Peaks -/

namespace Engine

/-- The ceiling stays, and the most tokens that there have been are no more than there are now or
    had been before. -/
structure Gauged (e e' : Engine ω) : Prop where
  limit : e'.limit = e.limit
  peak : e'.stats.peakTokens ≤ max e.stats.peakTokens e'.tokens.size

theorem Gauged.of_eq (hlimit : e'.limit = e.limit)
    (hpeak : e'.stats.peakTokens = e.stats.peakTokens) : e.Gauged e' :=
  ⟨hlimit, hpeak ▸ Nat.le_max_left ..⟩

/-- Later on there are no fewer tokens. -/
theorem Gauged.trans (h : e.Gauged e₁) (h' : e₁.Gauged e')
    (hsize : e₁.tokens.size ≤ e'.tokens.size) : e.Gauged e' := by
  refine ⟨h'.limit.trans h.limit, ?_⟩
  have hpeak := h.peak
  have hpeak' := h'.peak
  omega

theorem spawn_gauged (hs : e.spawn tok = some (id, e')) : e.Gauged e' := by
  unfold spawn at hs
  split at hs
  · cases hs
    exact ⟨rfl, Nat.le_refl _⟩
  · cases hs

theorem spawnReady_gauged (tok : Token) : e.Gauged (e.spawnReady tok) := by
  unfold spawnReady
  split
  · rename_i hs
    exact ⟨(spawn_gauged hs).limit, (spawn_gauged hs).peak⟩
  · exact .of_eq rfl rfl

theorem askVotes_gauged (host : Host ω) (scope : Scope) (vote : Token) (cohorts : List CohortId) :
    e.Gauged (askVotes host scope vote e cohorts) := by
  refine askVotes_induct (P := e.Gauged) (fun {e₁ e₂ _} c h hs => ?_) (.of_eq rfl rfl) cohorts
  have hsize := (spawn_deserted hs).1
  have hspawned := h.trans (spawn_gauged hs) (by omega)
  exact ⟨hspawned.limit, hspawned.peak⟩

theorem react_gauged (kind : RegionKind) : e.Gauged (e.react kind) := by
  cases kind with
  | otherwise published k =>
    dsimp only [react]
    split
    · exact .of_eq rfl rfl
    · exact spawnReady_gauged _
  | root | pruning | transaction | votes => exact .of_eq rfl rfl

theorem perform_gauged (he' : e.perform host a = .ok e') : e.Gauged e' := by
  cases performed he' with
  | @quiesce r reg hr =>
    have hreact := react_gauged (e := e.removed r reg) reg.kind
    exact ⟨hreact.limit, hreact.peak⟩
  | @prepare x txn =>
    have hasked := askVotes_gauged (e := e.openVotes x txn) host txn.scope
      (txn.vote x e.regions.next) txn.cohorts
    exact ⟨hasked.limit, hasked.peak⟩
  | @verify x txn =>
    refine .of_eq ?_ ?_ <;> unfold concluded committed <;> cases txn.parent <;> rfl
  | release => exact spawnReady_gauged _
  | _ => exact .of_eq rfl rfl

end Engine

/-! ## Steps -/

/-- No token is added, and no region is to react that was not before. -/
structure Engine.Steady (e e' : Engine ω) : Prop where
  size : e'.tokens.size = e.tokens.size
  limit : e'.limit = e.limit
  peak : e'.stats.peakTokens = e.stats.peakTokens
  react : ∀ {r}, .quiesce r ∈ e'.agenda → .quiesce r ∈ e.agenda

/-- What a step does to the number of tokens: it adds one if there is room. -/
structure Engine.Swells (e e' : Engine ω) : Prop extends e.Gauged e' where
  size : e'.tokens.size = e.tokens.size ∨ e.atCapacity = none ∧ e'.tokens.size = e.tokens.size + 1
  react : ∀ {r}, .quiesce r ∈ e'.agenda → e'.Escaping r

section Steps

variable {t : TokenId} {tok : Token}

theorem Engine.Steady.trans (h : e.Steady e₁) (h' : e₁.Steady e') : e.Steady e' :=
  ⟨h'.size.trans h.size, h'.limit.trans h.limit, h'.peak.trans h.peak,
    fun hm => h.react (h'.react hm)⟩

theorem Engine.Steady.swells (h : e.Steady e') (ha : e.agenda = []) : e.Swells e' where
  toGauged := .of_eq h.limit h.peak
  size := .inl h.size
  react hm := by
    have hm := h.react hm
    rw [ha] at hm
    cases hm

theorem Engine.steady_becomes (tok : Token) : e.Steady (e.becomes t tok) :=
  ⟨Store.size_modify _, rfl, rfl, id⟩

theorem Engine.steady_plan (h : ∀ r, a ≠ .quiesce r) : e.Steady (e.plan [a]) :=
  ⟨rfl, rfl, rfl, fun hm => (mem_cons.1 hm).resolve_left fun heq => h _ heq.symm⟩

theorem Engine.steady_park (c : GroupId) : e.Steady (e.park t c) := by
  unfold park
  split
  · exact ⟨Store.size_modify _, rfl, rfl, id⟩
  · exact steady_plan nofun

theorem Engine.steady_enlist (scope : Scope) (cohorts : List CohortId) :
    e.Steady (e.enlist scope cohorts) := by
  rw [enlist_eq]
  exact ⟨rfl, rfl, rfl, id⟩

theorem Engine.steady_failed (error : TokenError) : e.Steady (e.failed host t tok error) :=
  ⟨rfl, rfl, rfl, (steady_plan (e := e) (a := .killToken t) nofun).react⟩

theorem Replied.steady {reply : Reply} (h : Replied host e t tok site next reply e') :
    e.Steady e' := by
  cases h with
  | publish => exact ⟨Store.size_modify _, rfl, rfl, id⟩
  | halt => exact steady_plan nofun
  | fail => exact steady_failed _

theorem Served.steady {values : List Value} (h : Served host e t tok site values next e') :
    e.Steady e' := by
  cases h with
  | immediate hmode hreply | outside hmode hscope hreply =>
    have hreplied := hreply.steady
    exact ⟨hreplied.size, hreplied.limit, hreplied.peak, hreplied.react⟩
  | inside hmode hscope hreply =>
    have hreplied := (steady_enlist ..).trans hreply.steady
    exact ⟨hreplied.size, hreplied.limit, hreplied.peak, hreplied.react⟩
  | @refused scope =>
    have henlisted := (steady_enlist
      (e := (e.absorb (host.transact site values (some scope) e.world)).2) scope
      (host.transact site values (some scope) e.world).answer.enlisted).trans
        (steady_plan (a := .abort scope.id) nofun)
    exact ⟨henlisted.size, henlisted.limit, henlisted.peak, henlisted.react⟩
  | launched | timer => exact ⟨Store.size_modify _, rfl, rfl, id⟩
  | unspawned | timerFailed =>
    exact ⟨rfl, rfl, rfl, (steady_plan (e := e) (a := .killToken t) nofun).react⟩

theorem Called.steady {target : Operand} {args : List Operand} {tail : Bool}
    (h : Called host e t tok target args next tail e') : e.Steady e' := by
  cases h with
  | pending | argPending => exact steady_park _
  | uncallable | mismatch => exact steady_failed _
  | enter => exact ⟨Store.size_modify _, rfl, rfl, id⟩
  | site hv hargs hserved =>
    exact ⟨hserved.steady.size, hserved.steady.limit, hserved.steady.peak, hserved.steady.react⟩

theorem Engine.spawn_swells (hs : e.spawn tok = some (id, e')) (ha : e.agenda = [])
    (hcap : e.atCapacity = none) : e.Swells e' where
  toGauged := spawn_gauged hs
  size := .inr ⟨hcap, (spawn_deserted hs).1⟩
  react hm := by
    rw [(spawn_deserted hs).2.1, ha] at hm
    cases hm

theorem Engine.spawnReady_swells (tok : Token) (ha : e.agenda = []) (hcap : e.atCapacity = none) :
    e.Swells (e.spawnReady tok) := by
  unfold spawnReady
  split
  · rename_i hs
    have hspawned := spawn_swells hs ha hcap
    exact ⟨⟨hspawned.limit, hspawned.peak⟩, hspawned.size, hspawned.react⟩
  · exact Steady.swells ⟨rfl, rfl, rfl, id⟩ ha

theorem Engine.Swells.goesOn {k : Token} (h : e.Swells e') : e.Swells (e'.goesOn t k) := by
  have hsize : (e'.goesOn t k).tokens.size = e'.tokens.size := Store.size_modify _
  refine ⟨⟨h.limit, ?_⟩, ?_, h.react⟩
  · rw [hsize]
    exact h.peak
  · rw [hsize]
    exact h.size

/-- A step adds at most one token, and only below the ceiling. -/
theorem Executed.swells {node : Node} (h : Executed host e t tok node e') (ha : e.agenda = []) :
    e.Swells e' := by
  cases h with
  | stop => exact (steady_plan (a := .killToken t) (by simp)).swells ha
  | load | field | push | unwind | declare | ret =>
    exact Steady.swells ⟨Store.size_modify _, rfl, rfl, id⟩ ha
  | publish =>
    exact Steady.swells ⟨rfl, rfl, rfl, (steady_plan (e := e) (a := .killToken t) (by simp)).react⟩ ha
  | buffer =>
    exact Steady.swells ⟨rfl, rfl, rfl, (steady_plan (e := e) (a := .killToken t) (by simp)).react⟩ ha
  | loadPending | fieldPending => exact (steady_park _).swells ha
  | fieldFailed | forkFull | subgoalFull => exact (steady_failed _).swells ha
  | call hcalled => exact ((steady_becomes _).trans hcalled.steady).swells ha
  | @fork left right hcap =>
    have hforked := (spawnReady_swells (e := e.forked)
      (tok.forkAt right) ha hcap).goesOn (t := t) (k := { tok with node := left })
    exact ⟨⟨hforked.limit, hforked.peak⟩, hforked.size, hforked.react⟩
  | subgoal hcap hs =>
    have hspawned := spawn_swells hs ha hcap
    have henqueued : e.Swells (enqueue _ e.tokens.next) :=
      ⟨⟨hspawned.limit, hspawned.peak⟩, hspawned.size, hspawned.react⟩
    exact henqueued.goesOn
  | @resolve grp waiters region hg hkind hfree =>
    refine Steady.swells ⟨rfl, rfl, rfl, fun hm => ?_⟩ ha
    grind [Engine.bind, plan, Engine.count, onGroup]
  | otherwise =>
    refine Steady.swells ⟨Store.size_modify _, rfl, rfl, ?_⟩ ha
    exact (steady_plan (e := e) (a := .proceed _ _) (by simp)).react
  | @escape next reg preg b k p =>
    refine ⟨.of_eq rfl rfl, .inl (Store.size_modify _), fun {r} hm => ⟨t, next, ?_⟩⟩
    grind [plan, moved, published, onRegion]
  | atomic =>
    refine Steady.swells ⟨?_, rfl, rfl, ?_⟩ ha
    · exact (Store.size_modify _).trans (Store.size_modify _)
    · exact (steady_plan (e := e) (a := .enqueue _) (by simp)).react

/-- No message adds a token. -/
theorem Received.steady {message : Message} (h : Received host e message e') : e.Steady e' := by
  cases h with
  | terminate | late | vetoedLate => exact ⟨rfl, rfl, rfl, id⟩
  | publish => exact ⟨Store.size_modify _, rfl, rfl, id⟩
  | halt => exact steady_plan nofun
  | fail => exact ⟨rfl, rfl, rfl, (steady_plan (e := e) (a := .killToken _) nofun).react⟩
  | @vetoed t tok ht =>
    refine ⟨rfl, rfl, rfl, fun {r} hm => ?_⟩
    have hm : Chore.quiesce r ∈ (tok.txn.map Chore.abort).toList ++ [.killToken t] ++ e.agenda := hm
    cases htxn : tok.txn <;> simpa [htxn] using hm

theorem Engine.steady_wakeAll (ts : List TokenId) : e.Steady (ts.foldl wake e) := by
  induction ts generalizing e with
  | nil => exact ⟨rfl, rfl, rfl, id⟩
  | cons t ts ih =>
    refine Steady.trans ?_ ih
    unfold wake
    split
    · exact ⟨Store.size_modify _, rfl, rfl, id⟩
    · exact ⟨rfl, rfl, rfl, id⟩

/-- Nor does waiting. -/
theorem Idled.steady (h : Idled host e p) : e.Steady p.state := by
  cases h with
  | await | stuck => exact ⟨rfl, rfl, rfl, id⟩
  | tick =>
    have hwoken := steady_wakeAll (e := { e.dropDeadTimers with
      clocks := (e.dropDeadTimers.clocks.map Clock.tick).map Prod.snd }.count
        fun s => { s with ticks := s.ticks + 1 }) e.dropDeadTimers.due
    exact ⟨hwoken.size, hwoken.limit, hwoken.peak, hwoken.react⟩

end Steps

/-! ## Runs -/

namespace Engine

/-- Where nothing is to be taken off a count and nothing is to come, no region is deserted. -/
theorem demand_eq_size (hc : Coherent m e) (hsettle : ∀ r, .settle r ∉ e.agenda)
    (hdetach : ∀ p c, .detach p c ∉ e.agenda) (harrivals : e.arrivals = [])
    (hreact : ∀ {r}, .quiesce r ∈ e.agenda → e.Escaping r) : e.demand = e.tokens.size := by
  have hnone : e.deserted = ∅ := by
    refine Finset.eq_empty_of_forall_notMem fun r hr => ?_
    obtain ⟨⟨reg, hr, htokens, hchildren⟩, -, hstays⟩ := mem_deserted.1 hr
    have hnone : reg.children = [] :=
      eq_nil_iff_forall_not_mem.2 fun c hm => hdetach r c (hchildren c hm)
    have hlive := hc.core.census.live_eq hr
    rw [htokens, hnone] at hlive
    rcases hc.core.census.lively hr with hpos | hhollow
    · simp only [length_nil] at hlive
      omega
    · unfold hollow at hhollow
      grind
  unfold demand
  rw [hnone, harrivals]
  rfl

theorem demand_of_idle (hc : Coherent m e) (ha : e.agenda = []) : e.demand = e.tokens.size := by
  grind [demand_eq_size, arrivals]

theorem size_le_demand (e : Engine ω) : e.tokens.size ≤ e.demand := by
  unfold demand
  omega

/-- What a turn makes of the demand, and of the peak. -/
theorem turn_demand (hc : Coherent m e) (hseat : Seated e.agenda) (hp : e.turn host = .ok p) :
    e.Gauged p.state ∧
      ∀ n, e.limit = some n → p.state.demand ≤ max (e.demand + e.excess) n := by
  obtain ⟨m', -, hc'⟩ := hc.turn _ hp
  have hsize := e.size_le_demand
  have hsteady : e.Steady p.state → p.state.demand = p.state.tokens.size →
      e.Gauged p.state ∧ ∀ n, e.limit = some n → p.state.demand ≤ max (e.demand + e.excess) n := by
    intro h hdemand
    refine ⟨.of_eq h.limit h.peak, fun n hn => ?_⟩
    have hsame := h.size
    omega
  cases turned hp with
  | chore he he' =>
    subst he
    exact ⟨⟨(perform_gauged he').limit, (perform_gauged he').peak⟩, fun n _ =>
      (perform_demand hc hseat.tail he').trans (Nat.le_max_left ..)⟩
  | done ha | skip ha => exact hsteady ⟨rfl, rfl, rfl, id⟩ (demand_of_idle hc' ha)
  | @step t tok ready node e' ha hh hready ht hphase hnode he' =>
    have hcore := hc.taken ha ready
    have hswells := (executed hcore ht he').swells ha
    obtain ⟨mail, notices, hf⟩ := hc.footprint ha ht hphase he'
    have hdemand : e'.demand = e'.tokens.size := by
      refine demand_eq_size hc' (fun r hm => hf.follows _ hm) (fun p c hm => hf.follows _ hm) ?_
        hswells.react
      refine filterMap_eq_nil_iff.2 fun b hb => ?_
      have hfollows := hf.follows b hb
      cases b <;> first | rfl | cases hfollows
    refine ⟨⟨hswells.limit, hswells.peak⟩, fun n hn => ?_⟩
    show e'.demand ≤ _
    rcases hswells.size with hsame | ⟨hcap, hmore⟩
    · grind [taken, count]
    · have hmore : e'.tokens.size = e.tokens.size + 1 := hmore
      have hroom : ¬n ≤ e.tokens.size := by
        have hcap : e.limit.filter (fun limit => limit ≤ e.tokens.size) = none := hcap
        simpa [hn] using hcap
      omega
  | @message message inbox ha hh hready hinbox =>
    have hreceived := (received host { e with inbox } message).steady
    refine hsteady ⟨hreceived.size, hreceived.limit, hreceived.peak, hreceived.react⟩ ?_
    have hagenda : ∀ b ∈ (receive host { e with inbox } message).agenda,
        (∃ t, b = .killToken t) ∨ ∃ x, b = .abort x := by
      intro b hb
      refine (receive_agenda message hb).resolve_left fun hm => ?_
      rw [show e.agenda = [] from ha] at hm
      cases hm
    refine demand_eq_size hc' (fun r hm => ?_) (fun p c hm => ?_) ?_ (fun hm => ?_)
    · obtain ⟨_, heq⟩ | ⟨_, heq⟩ := hagenda _ hm <;> cases heq
    · obtain ⟨_, heq⟩ | ⟨_, heq⟩ := hagenda _ hm <;> cases heq
    · refine filterMap_eq_nil_iff.2 fun b hb => ?_
      obtain ⟨_, rfl⟩ | ⟨_, rfl⟩ := hagenda b hb <;> rfl
    · obtain ⟨_, heq⟩ | ⟨_, heq⟩ := hagenda _ hm <;> cases heq
  | idle ha => grind [Idled.steady, idled, demand_of_idle, idle_agenda]

theorem excess_of_idle (ha : e.agenda = []) : e.excess = 0 := by
  unfold excess
  rw [ha]

end Engine

section Runs

variable {program : Program} {limit : Option Nat} {world : ω} {past : History ω}
  {e : Engine (Logged ω)}

theorem Engine.demand_deliver (e : Engine (Logged ω)) (message : Message) :
    (e.deliver message).demand ≤ e.demand := by
  have hcard : (e.deliver message).deserted.card ≤ e.deserted.card :=
    deserted_card_le fun _ hr => ⟨hr.empty, hr.unawaited, hr.stays⟩
  exact Nat.add_le_add_right (Nat.add_le_add_left hcard _) _

theorem Run.seated (h : Run host program limit world past e) : Seated e.agenda := by
  induction h with
  | start => exact trivial
  | turn h hp ih =>
    obtain ⟨m, hc⟩ := h.coherent
    exact ih.turn hc hp
  | arrive _ _ ih => exact ih

/-- All along a run the demand is within the ceiling but for the excess. -/
theorem Run.demand {n : Nat} (hn : 1 ≤ n) (h : Run host program (some n) world past e) :
    e.limit = some n ∧ e.demand ≤ n + (past.map Engine.excess).sum ∧
      e.stats.peakTokens ≤ n + (past.map Engine.excess).sum ∧
      ∀ {before e₀ after}, past = before ++ e₀ :: after → e₀.agenda = [] →
        e.demand ≤ max n e₀.tokens.size + (after.map Engine.excess).sum := by
  induction h with
  | start =>
    have hdemand : (opening program (some n) world).demand = 1 :=
      demand_of_idle (Coherent.start program (some n) _) rfl
    refine ⟨rfl, ?_, hn, fun hpast => ?_⟩
    · rw [hdemand]
      exact hn
    · simp at hpast
  | @turn past e p h hp ih =>
    obtain ⟨hlimit, hdemand, hpeak, hsince⟩ := ih
    obtain ⟨m, hc⟩ := h.coherent
    obtain ⟨hgauged, hturn⟩ := turn_demand hc h.seated hp
    have hturn := hturn n hlimit
    have hsize := p.state.size_le_demand
    have hpeak' := hgauged.peak
    rw [map_append, sum_append, map_singleton, sum_singleton]
    refine ⟨hgauged.limit.trans hlimit, by omega, by omega, fun {before e₀ after} hpast ha => ?_⟩
    rcases eq_nil_or_concat after with rfl | ⟨after, e₁, rfl⟩
    · grind [append_singleton_inj, demand_of_idle, excess_of_idle]
    · grind [append_singleton_inj]
  | @arrive past e _ message ih => grind [demand_deliver, deliver]

end Runs

/-! ## The ceiling -/

/-- The ceiling on tokens holds but for the EXCESS: a section that goes on to its votes adds a token
    for each cohort, and one that commits adds a token for each publication, and only the first of
    them comes in the place of a token that has ended.  So the ceiling holds where nothing is in
    excess.  Nor does the excess add up for good: after a turn that begins with nothing left to do,
    only that of later turns counts. -/
theorem token_ceiling (host : Host ω) (program : Program) (world : ω) {n : Nat} (hn : 1 ≤ n)
    {past : List (Engine (Logged ω))} {e : Engine (Logged ω)}
    (h : Run host program (some n) world past e) :
    (e.tokens.size ≤ n + (past.map Engine.excess).sum ∧
      e.stats.peakTokens ≤ n + (past.map Engine.excess).sum) ∧
    ((∀ e₀ ∈ past, e₀.excess = 0) → e.tokens.size ≤ n ∧ e.stats.peakTokens ≤ n) ∧
    ∀ before e₀ after, past = before ++ e₀ :: after → e₀.agenda = [] →
      e.tokens.size ≤ max n e₀.tokens.size + (after.map Engine.excess).sum := by
  obtain ⟨-, hdemand, hpeak, hsince⟩ := h.demand hn
  have hsize := e.size_le_demand
  refine ⟨⟨hsize.trans hdemand, hpeak⟩, fun hnone => ?_, fun before e₀ after hpast ha => ?_⟩
  · have hsum : (past.map excess).sum = 0 := by
      refine List.sum_eq_zero_iff_forall_eq_nat.2 fun k hm => ?_
      obtain ⟨e₀, he₀, rfl⟩ := mem_map.1 hm
      exact hnone e₀ he₀
    omega
  · exact hsize.trans (hsince hpast ha)

/-- Three publications of a section that has two tokens at a time, `atomic (1 | (0 >> (2 | 3)))`. -/
def Expr.batch : Expr :=
  .atomic (.parallel (.value (.literal (.int 1)))
    (.sequential (.value (.literal (.int 0)))
      (.parallel (.value (.literal (.int 2))) (.value (.literal (.int 3))))))

/-- The three publications are let go at once, where two tokens are allowed. -/
theorem ceiling_exceeded : ∃ p past e, Expr.batch.compile ⟨[]⟩ = .ok p ∧
    Run Host.echo p (some 2) () past e ∧ e.tokens.size = 3 ∧ e.stats.peakTokens = 3 := by
  obtain ⟨p, hp, hcheck⟩ : ∃ p, Expr.batch.compile ⟨[]⟩ = .ok p ∧
      (((opening p (some 2) ()).trace Host.echo.logged 29).any fun found =>
        found.2.tokens.size = 3 && found.2.stats.peakTokens = 3) = true :=
    ⟨_, rfl, by decide +kernel⟩
  obtain ⟨⟨past, e⟩, htrace, hcheck⟩ := Option.any_eq_true .. |>.1 hcheck
  simp only [Bool.and_eq_true, decide_eq_true_eq] at hcheck
  exact ⟨p, past, e, hp, Run.start.trace htrace, hcheck⟩

/-- Two of the three tokens are in excess; there had been room for one of them. -/
theorem token_ceiling_batch : ∃ p past e, Expr.batch.compile ⟨[]⟩ = .ok p ∧
    1 ≤ 2 ∧ Run Host.echo p (some 2) () past e ∧ (past.map Engine.excess).sum = 2 ∧
      e.tokens.size = 3 ∧ e.tokens.size ≤ 2 + 2 ∧ e.stats.peakTokens ≤ 2 + 2 := by
  obtain ⟨p, hp, hcheck⟩ : ∃ p, Expr.batch.compile ⟨[]⟩ = .ok p ∧
      (((opening p (some 2) ()).trace Host.echo.logged 29).any fun found =>
        (found.1.map excess).sum = 2 && found.2.tokens.size = 3) = true :=
    ⟨_, rfl, by decide +kernel⟩
  obtain ⟨⟨past, e⟩, htrace, hcheck⟩ := Option.any_eq_true .. |>.1 hcheck
  simp only [Bool.and_eq_true, decide_eq_true_eq] at hcheck
  have hrun := Run.start.trace htrace
  rw [nil_append] at hrun
  have hceiling := (token_ceiling Host.echo p () (by decide) hrun).1
  rw [hcheck.1] at hceiling
  exact ⟨p, past, e, hp, by decide, hrun, hcheck.1, hcheck.2, hceiling⟩

end Orchestra
