/-
  Descent: every cascade comes to an end.

  A chore leaves further chores, and some add what others have to take away: a transaction whose
  body is done gets a region for its votes, an `otherwise` its fallback, a commit its publications.
  Still every chore leaves less ahead (`Engine.Eases`), whatever it is and whoever asks for it, as long
  as regions get younger from top to bottom.

  Closing regions goes down a tree, and the regions below are not fewer than the one that they
  replace.  They are younger, though, and each is there once, so weights that halve with age settle it.
-/
import Mathlib.Algebra.Order.Ring.GeomSum
import Orchestra.Proofs.Accounts
import Orchestra.Proofs.Reactions

namespace Orchestra

open Engine List

variable {ω : Type} {m : Charter} {e e' : Engine ω} {host : Host ω} {a : Chore}
  {regions : Store .region Region}

/-! ## Younger regions below older ones -/

/-- The regions below a region are there once each, younger than it and known. -/
def Ranked (regions : Store .region Region) : Prop :=
  ∀ r reg, regions.get? r = some reg → reg.children.Nodup ∧
    ∀ c ∈ reg.children, r.index < c.index ∧ c.index < regions.next.index

/-- The regions below weigh less than the region itself. -/
theorem Ranked.children_lt (h : Ranked regions) {r : RegionId} {reg : Region}
    (hr : regions.get? r = some reg) :
    (reg.children.map (Region.weight regions.next.index)).sum <
      Region.weight regions.next.index r := by
  obtain ⟨hnodup, hyounger⟩ := h r reg hr
  have hinj : (reg.children.map fun c => regions.next.index - c.index).Nodup := by
    refine List.Nodup.map_on (fun c hc c' hc' heq => ?_) hnodup
    have h₁ := (hyounger c hc).2
    have h₂ := (hyounger c' hc').2
    cases c
    cases c'
    simp only [Key.mk.injEq]
    simp only at heq h₁ h₂
    omega
  have hsum : (reg.children.map (Region.weight regions.next.index)).sum =
      ∑ i ∈ (reg.children.map fun c => regions.next.index - c.index).toFinset, 2 ^ i := by
    rw [sum_toFinset _ hinj, map_map]
    rfl
  rw [hsum]
  refine Nat.geomSum_lt (Nat.le_refl 2) fun i hi => ?_
  grind [mem_toFinset]

/-- A state in which no region is still to be taken off is ranked. -/
theorem Coherent.ranked (h : Coherent m e) (hnone : ∀ p c, .detach p c ∉ e.agenda) :
    Ranked e.regions := by
  intro r reg hr
  have hcensus := h.core.census
  refine ⟨hcensus.children_nodup hr, fun c hc => ⟨?_, hcensus.known hr hc⟩⟩
  rcases hcensus.child_of hr hc with ⟨creg, hcreg, hparent⟩ | hpending
  · exact hcensus.older hcreg hparent
  · exact absurd (mem_detaches.1 hpending) (hnone r c)

/-- Regions that lose some of those below stay ranked. -/
theorem Ranked.mono {regions' : Store .region Region} (h : Ranked regions)
    (hnext : regions'.next = regions.next) (hfrom : ∀ {r reg'}, regions'.get? r = some reg' →
      ∃ reg, regions.get? r = some reg ∧ reg'.children.Sublist reg.children) : Ranked regions' := by
  intro r reg' hr'
  obtain ⟨reg, hr, hsub⟩ := hfrom hr'
  obtain ⟨hnodup, hyounger⟩ := h r reg hr
  exact ⟨hsub.nodup hnodup, fun c hc => hnext ▸ hyounger c (hsub.subset hc)⟩

theorem Ranked.modify (h : Ranked regions) (r : RegionId) {f : Region → Region}
    (hf : ∀ reg, (f reg).children.Sublist reg.children) : Ranked (regions.modify r f) :=
  h.mono (Store.next_modify ..) fun hr =>
    Store.modify_back (P := fun a b => b.children.Sublist a.children) (fun _ => .refl _) hf hr

theorem Ranked.grown (h : Ranked e.regions) (hgrown : e.Grown e') : Ranked e'.regions := by
  grind [mono, Engine.Grown.next_region, Engine.Grown.region_from]

/-- Chores leave regions ranked. -/
theorem Ranked.performed (h : Ranked e.regions) (hp : Performed host e a e') : Ranked e'.regions := by
  cases hp with
  | killToken | close =>
    refine h.modify _ ?_
    exact fun _ => .refl _
  | detach =>
    refine h.modify _ ?_
    exact fun _ => erase_sublist
  | @quiesce r reg =>
    obtain ⟨new, b, hgrown⟩ := e.quiesce_grown r reg
    refine Ranked.grown (h.mono (Store.next_remove ..) fun hr => ?_) hgrown
    exact ⟨_, (Store.of_get?_remove hr).2, .refl _⟩
  | release => exact h.grown (e.spawnReady_grown _)
  | @prepare x txn preg hx hstate hp =>
    show Ranked (askVotes host _ _ (e.openVotes x txn) _).regions
    refine Ranked.grown ?_ (askVotes_grown ..)
    have hnext : (e.openVotes x txn).regions.next.index = e.regions.next.index + 1 := by
      show ((e.regions.insert _).modify _ _).next.index = _
      rw [Store.next_modify, Store.next_insert]
    intro r reg hr
    have hr : ((e.regions.insert _).modify _ _).get? r = some reg := hr
    rcases Store.of_get?_modify ((Store.get?_insert_of_ne _ _ (Store.ne_next hp)).trans hp) hr with
      ⟨rfl, rfl⟩ | ⟨-, hr⟩
    · obtain ⟨hnodup, hyounger⟩ := h _ preg hp
      -- the new region is the youngest
      grind [Store.lt_next]
    · rcases Store.inserted hr with ⟨-, rfl⟩ | ⟨-, hr⟩
      · exact ⟨nodup_nil, by simp⟩
      · refine ⟨(h r reg hr).1, fun c hc => ?_⟩
        have := (h r reg hr).2 c hc
        omega
  | _ => exact h

/-! ## Cascades -/

/-- Doing all that stands above `rest` on the agenda takes `n` turns and ends in a state in which
    `rest` is left, or in a fault. -/
inductive Subsides (host : Host ω) (rest : List Chore) :
    Nat → Engine ω → Except Fault (Engine ω) → Prop where
  | done {e : Engine ω} (ha : e.agenda = rest) : Subsides host rest 0 e (.ok e)
  | fault {e : Engine ω} {a : Chore} {above : List Chore} {fault : Fault}
    (ha : e.agenda = a :: (above ++ rest)) (he : e.turn host = .error fault) :
    Subsides host rest 1 e (.error fault)
  | chore {n : Nat} {e e' : Engine ω} {a : Chore} {above : List Chore} {r : Except Fault (Engine ω)}
    (ha : e.agenda = a :: (above ++ rest)) (he : e.turn host = .ok (.next e'))
    (h : Subsides host rest n e' r) : Subsides host rest (n + 1) e r

theorem Engine.turn_fault {fault : Fault} (he' : e.perform host a = .error fault) :
    (e.plan [a]).turn host = .error fault := by
  show (e.perform host a >>= fun e => pure (Progress.next e)) = _
  rw [he']
  rfl

/-- Whatever stands on top of an agenda is done some day. -/
theorem Ranked.subsides {ω : Type} (host : Host ω) (rest : List Chore) {e : Engine ω}
    (h : Ranked e.regions) {above : List Chore} (ha : e.agenda = above ++ rest) :
    ∃ n r, Subsides host rest n e r := by
  cases above with
  | nil => exact ⟨0, _, .done ha⟩
  | cons a above =>
    have hplan : e = ({ e with agenda := above ++ rest } : Engine ω).plan [a] := eq_plan ha
    cases he' : ({ e with agenda := above ++ rest } : Engine ω).perform host a with
    | error fault =>
      have hturn := turn_fault he'
      rw [← hplan] at hturn
      exact ⟨1, .error fault, .fault ha hturn⟩
    | ok e' =>
      have hturn := turn_plan he'
      rw [← hplan] at hturn
      have heases : e'.Eases e := by grind [perform_eases, children_lt]
      obtain ⟨new, hagenda, -⟩ := perform_plans he'
      have hagenda : e'.agenda = (new ++ above) ++ rest := by rw [hagenda, append_assoc]
      have hranked := Ranked.performed (e := { e with agenda := above ++ rest }) h
        (Engine.performed he')
      obtain ⟨n, r, hrest⟩ := Ranked.subsides host rest hranked hagenda
      exact ⟨n + 1, r, .chore ha hturn hrest⟩
termination_by e.toil
decreasing_by exact heases.lex

/-- The chores of a coherent state never fault. -/
theorem Subsides.not_fault {rest : List Chore} {n : Nat} {r : Except Fault (Engine ω)}
    (h : Subsides host rest n e r) (hc : Coherent m e) : ∃ e', r = .ok e' := by
  induction h generalizing m with
  | done => exact ⟨_, rfl⟩
  | fault ha he =>
    have hplan := eq_plan ha
    rw [hplan] at hc
    obtain ⟨e', he'⟩ := hc.exists_perform host
    have hturn := turn_plan he'
    rw [← hplan, he] at hturn
    cases hturn
  | chore _ he _ ih =>
    obtain ⟨m', -, hc'⟩ := hc.turn host he
    exact ih hc'

/-! ## States that can be reached -/

/-- A turn leaves regions ranked. -/
theorem Ranked.turn (h : Ranked e.regions) (hc : Coherent m e) {p : Progress ω}
    (hp : e.turn host = .ok p) : Ranked p.state.regions := by
  obtain ⟨m', -, hc'⟩ := hc.turn host hp
  cases turned hp with
  | @chore e₁ _ _ he he' =>
    subst he
    exact Ranked.performed (e := e₁) h (Engine.performed he')
  | done | skip => exact h
  | step ha _ _ ht hphase _ he' =>
    obtain ⟨mail, notices, hfoot⟩ := hc.footprint ha ht hphase he'
    exact hc'.ranked fun _ _ hm => hfoot.follows _ hm
  | @message message inbox ha =>
    refine hc'.ranked fun p c hm => ?_
    rcases receive_agenda message hm with hm | ⟨_, heq⟩ | ⟨_, heq⟩
    · exact absurd (ha ▸ hm) not_mem_nil
    · cases heq
    · cases heq
  | idle ha => grind [Coherent.ranked, idle_agenda]

theorem Reachable.ranked {program : Program} {limit : Option Nat} {world : ω}
    (h : Reachable host program limit world e) : Ranked e.regions := by
  unfold Reachable at h
  induction h with
  | refl =>
    refine (Coherent.start program limit world).ranked fun p c hm => ?_
    rw [start_eq] at hm
    cases hm
  | turn hreach hp ih =>
    obtain ⟨m, hc⟩ := Reaches.coherent hreach (Coherent.start program limit world)
    exact ih.turn hc hp
  | arrive _ message _ ih => exact ih

/-- Cascades end.  In every state that can be reached, whatever call is made next, be it to kill a
    token or a group, to close regions, to abort a transaction or to settle a region, all that it
    leads to is done after finitely many turns.  The calls that the program itself makes end, too,
    and none of them faults: from every state on the way, with any part of the agenda already
    under way, there is a turn after which only the rest is left. -/
theorem cascades_end (host : Host ω) (program : Program) (limit : Option Nat) (world : ω)
    {e : Engine ω} (h : Reachable host program limit world e) :
    (∀ call : Chore, ∃ n r, Subsides host e.agenda n (e.plan [call]) r) ∧
      ∀ {above rest : List Chore}, e.agenda = above ++ rest →
        ∃ n e', Subsides host rest n e (.ok e') := by
  refine ⟨fun call => ?_, fun {above rest} ha => ?_⟩
  · exact Ranked.subsides (e := e.plan [call]) host e.agenda h.ranked rfl
  · obtain ⟨n, r, hsub⟩ := h.ranked.subsides host rest ha
    obtain ⟨m, hc⟩ := h.coherent
    obtain ⟨e', rfl⟩ := hsub.not_fault hc
    exact ⟨n, e', hsub⟩

/-- Whether a region waits for the votes on a transaction. -/
def RegionKind.isVotes : RegionKind → Bool
  | .votes _ => true
  | _ => false

/-- The token whose end is all that is left to do. -/
def lastKill? : List Chore → Option TokenId
  | [.killToken t] => some t
  | _ => none

theorem eq_of_lastKill? {agenda : List Chore} {t : TokenId} (h : lastKill? agenda = some t) :
    agenda = [.killToken t] := by
  unfold lastKill? at h
  split at h
  · cases h
    rfl
  · cases h

/-- Three cascades of a run that make something before they end.  Killing the only token on the left
    of an `otherwise` brings in the fallback; when the body of a transaction ends by itself, its
    cohort is asked for a vote; and the end of the vote releases a publication. -/
theorem cascades_end_roundTrip : ∃ p, Expr.roundTrip.compile Registry.roundTrip = .ok p ∧
    (∃ e, Reachable Host.echo p none () e ∧ e.agenda = [] ∧ e.tokens.contains ⟨1⟩ = false ∧
      Run.Leads Host.echo (e.plan [.killToken ⟨0⟩]) 2 (fun e' => e'.tokens.contains ⟨1⟩) = true ∧
      ∃ n r, Subsides Host.echo [] n (e.plan [.killToken ⟨0⟩]) r) ∧
    (∃ e, Reachable Host.echo p none () e ∧ e.agenda = [.killToken ⟨1⟩] ∧
      Run.Leads Host.echo e 3 (fun e' => e'.tokens.contains ⟨3⟩ &&
        (e'.regions.get? ⟨4⟩).any (·.kind.isVotes)) = true ∧
      ∃ n e', Subsides Host.echo [] n e (.ok e')) ∧
    ∃ e, Reachable Host.echo p none () e ∧ e.agenda = [.killToken ⟨3⟩] ∧
      Run.Leads Host.echo e 8 (fun e' => e'.tokens.contains ⟨4⟩ && e'.transactions.size = 0) = true ∧
      ∃ n e', Subsides Host.echo [] n e (.ok e') := by
  obtain ⟨p, hp, hfallback, hvotes, hrelease⟩ : ∃ p,
      Expr.roundTrip.compile Registry.roundTrip = .ok p ∧
      Run.Leads Host.echo (Engine.new p none ()).start 9 (fun e => e.agenda.isEmpty &&
        !e.tokens.contains ⟨1⟩ && Run.Leads Host.echo (e.plan [.killToken ⟨0⟩]) 2
          fun e' => e'.tokens.contains ⟨1⟩) = true ∧
      Run.Leads Host.echo (Engine.new p none ()).start 31 (fun e => lastKill? e.agenda = some ⟨1⟩ &&
        Run.Leads Host.echo e 3 fun e' => e'.tokens.contains ⟨3⟩ &&
          (e'.regions.get? ⟨4⟩).any (·.kind.isVotes)) = true ∧
      Run.Leads Host.echo (Engine.new p none ()).start 37 (fun e => lastKill? e.agenda = some ⟨3⟩ &&
        Run.Leads Host.echo e 8 fun e' => e'.tokens.contains ⟨4⟩ && e'.transactions.size = 0) = true :=
    ⟨_, rfl, by decide +kernel, by decide +kernel, by decide +kernel⟩
  refine ⟨p, hp, ?_, ?_, ?_⟩
  · obtain ⟨e, he, hcheck⟩ := Reachable.of_leads hfallback
    simp only [Bool.and_eq_true, Bool.not_eq_true', List.isEmpty_iff] at hcheck
    obtain ⟨⟨ha, hnone⟩, hleads⟩ := hcheck
    have hends := (cascades_end Host.echo p none () he).1 (.killToken ⟨0⟩)
    rw [ha] at hends
    exact ⟨e, he, ha, hnone, hleads, hends⟩
  · obtain ⟨e, he, hcheck⟩ := Reachable.of_leads hvotes
    rw [Bool.and_eq_true, decide_eq_true_eq] at hcheck
    have ha := eq_of_lastKill? hcheck.1
    have hends := (cascades_end Host.echo p none () he).2 (ha.trans (append_nil _).symm)
    exact ⟨e, he, ha, hcheck.2, hends⟩
  · obtain ⟨e, he, hcheck⟩ := Reachable.of_leads hrelease
    rw [Bool.and_eq_true, decide_eq_true_eq] at hcheck
    have ha := eq_of_lastKill? hcheck.1
    have hends := (cascades_end Host.echo p none () he).2 (ha.trans (append_nil _).symm)
    exact ⟨e, he, ha, hcheck.2, hends⟩

end Orchestra
