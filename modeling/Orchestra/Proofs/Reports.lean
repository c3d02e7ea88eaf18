/-
  Reports: where a failure is said to have happened.

  A token knows the span of the last call that it has entered.  A copy of a token, and a token that
  goes on from a place that another one has kept, start with what that one knew.  When a token fails
  this is the span that is reported.

  * `LastCall`              the span of the last call that a token has entered, or the one it comes
                            from, told by what the tokens did and not by what they know;
  * `Spans`                 every token knows the span of its last call, and so does everything from
                            which a token may start later;
  * `failures_only_reported`  failures change nothing but what is reported, each is counted, and each
                            is reported with the span of the last call.
-/
import Orchestra.Proofs.Silence
import Orchestra.Proofs.Remains
import Orchestra.Proofs.Twins

namespace Orchestra

open Engine List

variable {ω : Type} {m : Charter} {e e' : Engine ω} {host : Host ω} {t v : TokenId}
  {tok tok' : Token} {node : Node} {k : Continuation} {span : Span} {tail : Bool}
  {e₀ : Engine (Watched ω)} {args : List Operand} {values : List Value}
  {message : Message} {next : Nat} {target : Operand} {limit : Option Nat} {program : Program}
  {p : Progress (Watched ω)} {reply : Reply} {site : Site} {world : ω}

/-! ## Where a token comes from -/

/-- The span of the call that is made at a node. -/
def Node.callSpan : Node → Option Span
  | .call _ _ _ _ span => some span
  | _ => none

/-- Whether a token is copied at a node. -/
def Node.copies : Node → Bool
  | .fork _ _ | .subgoal _ _ => true
  | _ => false

/-- The place that is kept at a node for a token to go on there later. -/
def Node.keeps : Node → Option Nat
  | .otherwise _ right => some right
  | .atomic _ next => some next
  | _ => none

namespace Engine

/-- The span of the call that a token enters in the next turn, if it does. -/
def callEntered (e : Engine ω) (t : TokenId) : Option Span :=
  match e.stepping with
  | some (t', _, node) => if t' = t then node.callSpan else none
  | none => none

/-- In the next turn a token sets its place aside, as `k`, for another one to go on there later. -/
def SetsAside (e : Engine ω) (t : TokenId) (k : Continuation) : Prop :=
  ∃ tok node place, e.stepping = some (t, tok, node) ∧ node.keeps = some place ∧
    k = tok.continueAt place

/-- The tokens that the next turn adds, if any, go on from `k`. -/
inductive Resumes (e : Engine ω) (k : Continuation) : Prop where
  | fallback {r : RegionId} {rest : List Chore} {p : Option RegionId}
    (ha : e.agenda = .quiesce r :: rest) (hr : e.setting r = some (p, .otherwise false k))
  | release {v : Value} {rest : List Chore} (ha : e.agenda = .release k v :: rest)
  | votes {x : TxnId} {rest : List Chore} {txn : Transaction} (ha : e.agenda = .prepare x :: rest)
    (hx : e.transactions.get? x = some txn) (hk : txn.continuation = k)

/-- A token may yet go on from `k`. -/
inductive Shelves (e : Engine ω) (k : Continuation) : Prop where
  | fallback {r : RegionId} {p : Option RegionId} {b : Bool}
    (hr : e.setting r = some (p, .otherwise b k))
  | publications {x : TxnId} {txn : Transaction} (hx : e.transactions.get? x = some txn)
    (hk : txn.continuation = k)
  | release {v : Value} (hm : .release k v ∈ e.agenda)

theorem Resumes.shelves (h : e.Resumes k) : e.Shelves k := by
  cases h with
  | fallback ha hr => exact .fallback hr
  | release ha => exact .release (ha ▸ mem_cons_self)
  | votes ha hx hk => exact .publications hx hk

end Engine

/-- After the states `past`, `span` is that of the last call which the token `t` has entered, or if
    it has entered none, the token that it comes from. -/
inductive LastCall : List (Engine ω) → TokenId → Span → Prop where
  /-- The first token comes from nowhere. -/
  | first {t : TokenId} : LastCall [] t .none
  | enters {past : List (Engine ω)} {e : Engine ω} {t : TokenId} {span : Span}
    (hspan : e.callEntered t = some span) : LastCall (past ++ [e]) t span
  | stays {past : List (Engine ω)} {e : Engine ω} {t : TokenId} {tok : Token} {span : Span}
    (ht : e.tokens.get? t = some tok) (hspan : e.callEntered t = none) (h : LastCall past t span) :
    LastCall (past ++ [e]) t span
  | copied {past : List (Engine ω)} {e : Engine ω} {t t₀ : TokenId} {tok₀ : Token} {node : Node}
    {span : Span} (ht : e.tokens.get? t = none) (hstep : e.stepping = some (t₀, tok₀, node))
    (hnode : node.copies = true) (h : LastCall past t₀ span) : LastCall (past ++ [e]) t span
  | resumed {before after : List (Engine ω)} {e₀ e : Engine ω} {t t₀ : TokenId} {k : Continuation}
    {span : Span} (ht : e.tokens.get? t = none) (hk : e.Resumes k) (hkept : e₀.SetsAside t₀ k)
    (h : LastCall before t₀ span) : LastCall (before ++ e₀ :: after ++ [e]) t span

/-! ## Steps -/

section Steps

/-- Of the tokens in `s` only `t` has changed, which now knows `span`. -/
structure Alters (s : Store .token Token) (t : TokenId) (span : Span) (s' : Store .token Token) :
    Prop where
  token : ∀ {v tok'}, s'.get? v = some tok' → v = t ∧ tok'.span = span ∨ v ≠ t ∧ s.get? v = some tok'

namespace Alters

variable {s : Store .token Token}

theorem refl (ht : s.get? t = some tok) : Alters s t tok.span s := by
  refine ⟨fun {v tok'} hv => ?_⟩
  grind

theorem modify (ht : s.get? t = some tok) {f : Token → Token} (hspan : (f tok).span = span) :
    Alters s t span (s.modify t f) := by
  refine ⟨fun {v tok'} hv => ?_⟩
  grind

theorem park (ht : e.tokens.get? t = some tok) (c : GroupId) :
    Alters e.tokens t tok.span (e.park t c).tokens := by
  unfold Engine.park
  split
  · exact .modify ht rfl
  · exact .refl ht

end Alters

theorem Replied.alters (h : Replied host e t tok site next reply e')
    (ht : e.tokens.get? t = some tok) : Alters e.tokens t tok.span e'.tokens := by
  cases h with
  | publish => exact .modify ht rfl
  | halt | fail => exact .refl ht

theorem Served.alters (h : Served host e t tok site values next e')
    (ht : e.tokens.get? t = some tok) : Alters e.tokens t tok.span e'.tokens := by
  cases h with
  | immediate hmode hreply => exact hreply.alters ht
  | outside hmode hscope hreply => exact hreply.alters ht
  | inside hmode hscope hreply =>
    rw [enlist_eq] at hreply
    exact hreply.alters ht
  | refused =>
    rw [enlist_eq]
    exact .refl ht
  | launched | timer => exact .modify ht rfl
  | unspawned | timerFailed => exact .refl ht

theorem Called.alters (h : Called host e t tok target args next tail e')
    (ht : e.tokens.get? t = some tok) : Alters e.tokens t tok.span e'.tokens := by
  cases h with
  | pending | argPending => exact .park ht _
  | uncallable | mismatch => exact .refl ht
  | enter => exact .modify ht rfl
  | site hv hargs hserved => exact hserved.alters ht

/-- A step tells its token the span of the call, if there is one, and a copy knows what the token
    knew. -/
theorem Executed.spans (h : Executed host e t tok node e') (ht : e.tokens.get? t = some tok)
    (hv : e'.tokens.get? v = some tok') :
    (v = t ∧ tok'.span = node.callSpan.getD tok.span ∨ v ≠ t ∧ e.tokens.get? v = some tok') ∨
      e.tokens.get? v = none ∧ node.copies = true ∧ tok'.span = tok.span := by
  -- a copy is added first, and then the token itself goes on
  have copied : ∀ {s : Store .token Token} {new : Token} {f : Token → Token},
      (s = e.tokens ∨ s = e.tokens.insert new) → new.span = tok.span → (f tok).span = tok.span →
      (s.modify t f).get? v = some tok' →
      (v = t ∧ tok'.span = tok.span ∨ v ≠ t ∧ e.tokens.get? v = some tok') ∨
        e.tokens.get? v = none ∧ tok'.span = tok.span := by grind
  cases h with
  | stop | fieldFailed | publish | forkFull | subgoalFull | resolve | buffer =>
    exact .inl ((Alters.refl ht).token hv)
  | load | field | push | unwind | declare | ret =>
    exact .inl ((Alters.modify ht rfl).token hv)
  | loadPending | fieldPending => exact .inl ((Alters.park ht _).token hv)
  | otherwise | escape => exact .inl ((Alters.modify ht rfl).token hv)
  | atomic =>
    have hv : ((e.tokens.modify t _).modify t _).get? v = some tok' := hv
    rw [Store.modify_modify] at hv
    exact .inl ((Alters.modify ht rfl).token hv)
  | @call target args next tail span e' hcalled =>
    have ht' : (e.becomes t { tok with span }).tokens.get? t = some { tok with span } := by
      rw [get?_becomes ht, if_pos rfl]
    refine .inl (((hcalled.alters ht').token hv).imp id fun ⟨hne, hv⟩ => ⟨hne, ?_⟩)
    rwa [get?_becomes ht, if_neg hne] at hv
  | @fork left right =>
    have hadded : (e.forked.spawnReady
        (tok.forkAt right)).tokens = e.tokens ∨ (e.forked.spawnReady (tok.forkAt right)).tokens =
            e.tokens.insert (tok.forkAt right) := by
      unfold spawnReady
      split
      · rename_i hs
        obtain ⟨-, -, -, he₁⟩ := spawn_eq_some hs
        rw [he₁]
        exact .inr rfl
      · exact .inl rfl
    exact (copied hadded rfl rfl hv).imp id fun ⟨hnone, hspan⟩ => ⟨hnone, rfl, hspan⟩
  | @subgoal left right e₁ hcap hs =>
    obtain ⟨-, -, -, he₁⟩ := spawn_eq_some hs
    have hadded : e₁.tokens = e.tokens ∨ e₁.tokens = e.tokens.insert (e.cellToken tok right) := by
      rw [he₁]
      exact .inr rfl
    exact (copied hadded rfl rfl hv).imp id fun ⟨hnone, hspan⟩ => ⟨hnone, rfl, hspan⟩

/-- A step that founds a transaction enters a section and sets its place aside. -/
theorem Executed.opens (h : Executed host e t tok node e') {x : TxnId} {txn : Transaction}
    (hnew : e.transactions.next.index ≤ x.index) (hx : e'.transactions.get? x = some txn) :
    ∃ place, node.keeps = some place ∧ txn.continuation = tok.continueAt place := by
  by_cases hatomic : node.isAtomic = true
  · cases h with
    | @atomic body next =>
      have hx : (e.transactions.insert _).get? x = some txn := hx
      rcases Store.inserted hx with ⟨-, rfl⟩ | ⟨-, hx⟩
      · exact ⟨next, rfl, rfl⟩
      · exact absurd (Store.lt_next hx) (Nat.not_lt.2 hnew)
    | _ => cases hatomic
  · have hnext := h.tallies.next
    rw [if_neg hatomic] at hnext
    have hlt := Store.lt_next hx
    omega

/-- What is set aside after a step was so before, or the step has set it aside. -/
theorem Executed.shelves (h : Executed host e t tok node e') {held : Option (TxnId × Value)}
    {mail : List Message} {notices : List Notice} (hf : Footprint host t tok held mail notices e e')
    (hk : e'.Shelves k) :
    e.Shelves k ∨ ∃ place, node.keeps = some place ∧ k = tok.continueAt place := by
  cases hk with
  | @fallback r p b hr =>
    by_cases hold : r.index < e.regions.next.index
    · obtain ⟨reg', hr', -, hkind'⟩ := Engine.setting_eq_some.1 hr
      rcases hf.region_from hr' with ⟨reg, hr, halike⟩ | ⟨rfl, -⟩
      · rcases halike.kind with hkind | ⟨b₁, b₂, k', hkind, hkind₂⟩
        · rw [hkind] at hkind'
          exact .inl (.fallback (Engine.setting_eq_some.2 ⟨reg, hr, rfl, hkind'⟩))
        · cases hkind₂.symm.trans hkind'
          exact .inl (.fallback (Engine.setting_eq_some.2 ⟨reg, hr, rfl, hkind⟩))
      · exact absurd hold (Nat.lt_irrefl _)
    · obtain ⟨-, -, left, right, rfl, rfl⟩ := h.founds (Nat.not_lt.1 hold) hr
      exact .inr ⟨right, rfl, rfl⟩
  | @publications x txn' hx' hk =>
    by_cases hold : x.index < e.transactions.next.index
    · rcases hf.txn_from hx' with ⟨txn, hx, halike, -⟩ | ⟨rfl, -⟩
      · exact .inl (.publications hx (halike.continuation.symm.trans hk))
      · exact absurd hold (Nat.lt_irrefl _)
    · grind [opens]
  | release hm => exact (hf.follows _ hm).elim

end Steps

/-! ## Turns -/

/-- What the token `v` knows after a turn from `e`. -/
inductive Engine.HandsDown (e : Engine ω) (v : TokenId) : Span → Prop where
  | call {span : Span} (hspan : e.callEntered v = some span) : HandsDown e v span
  | own {tok : Token} (ht : e.tokens.get? v = some tok) (hspan : e.callEntered v = none) :
    HandsDown e v tok.span
  | copy {t : TokenId} {tok : Token} {node : Node} (ht : e.tokens.get? v = none)
    (hstep : e.stepping = some (t, tok, node)) (hnode : node.copies = true) : HandsDown e v tok.span
  | resumption {k : Continuation} (ht : e.tokens.get? v = none) (hk : e.Resumes k) :
    HandsDown e v k.span

/-- What tokens know after a turn from `e` to `e'`, and what is set aside, stems from before. -/
structure Descends (e e' : Engine ω) : Prop where
  token : ∀ {v tok'}, e'.tokens.get? v = some tok' → e.HandsDown v tok'.span
  shelf : ∀ {k}, e'.Shelves k → e.Shelves k ∨ ∃ t, e.SetsAside t k

namespace Engine

theorem callEntered_of_not_stepping (h : e.stepping = none) (v : TokenId) :
    e.callEntered v = none := by
  unfold callEntered
  rw [h]

theorem callEntered_of_step (h : e.stepping = some (t, tok, node)) (v : TokenId) :
    e.callEntered v = if t = v then node.callSpan else none := by
  unfold callEntered
  rw [h]

/-- A chore hands down only spans that were kept. -/
theorem perform_descends {a : Chore} (he' : e.perform host a = .ok e') :
    Descends (e.plan [a]) e' := by
  have hno := callEntered_of_not_stepping (e := e.plan [a]) (stepping_of_chore rfl)
  constructor
  case token =>
    intro v tok' hv
    by_cases hold : v.index < e.tokens.next.index
    · rcases perform_old he' hold hv with ht | ⟨tok, ht, hsame⟩
      · exact .own ht (hno v)
      · have hown : (e.plan [a]).HandsDown v tok.span := .own ht (hno v)
        grind
    · have hnone : e.tokens.get? v = none := by
        rw [Option.eq_none_iff_forall_ne_some]
        exact fun tok ht => hold (Store.lt_next ht)
      rcases perform_started he' (Nat.not_lt.1 hold) hv with
        ⟨r, p, k, rfl, hr, rfl⟩ | ⟨k, w, rfl, rfl⟩ | ⟨x, txn, r, rfl, hx, rfl⟩
      · exact .resumption (k := k) hnone (.fallback rfl hr)
      · exact .resumption (k := k) hnone (.release rfl)
      · exact .resumption (k := txn.continuation) hnone (.votes rfl hx rfl)
  case shelf =>
    intro k hk
    refine .inl ?_
    cases hk with
    | @fallback r p b hr =>
      by_cases hold : r.index < e.regions.next.index
      · rcases perform_setting he' hold with hsame | hnone
        · exact .fallback (hsame.symm.trans hr)
        · rw [hnone] at hr
          cases hr
      · grind [setting_eq_some, perform_founds]
    | publications hx' hk =>
      obtain ⟨txn, hx, hstays⟩ := perform_txn_from he' hx'
      exact .publications hx (hstays.continuation.symm.trans hk)
    | release hm =>
      rcases perform_release he' hm with hm | ⟨x, txn, hx, rfl, -⟩
      · exact .release (mem_cons_of_mem _ hm)
      · exact .publications hx rfl

end Engine

/-- Without a step and without a chore, tokens know what they knew and nothing is set aside. -/
theorem Descends.of_same (hno : e.stepping = none)
    (htokens : ∀ {v tok'}, e'.tokens.get? v = some tok' →
      ∃ tok, e.tokens.get? v = some tok ∧ tok'.span = tok.span)
    (hregions : e'.regions = e.regions) (htxns : e'.transactions = e.transactions)
    (hagenda : ∀ {k v}, .release k v ∈ e'.agenda → .release k v ∈ e.agenda) : Descends e e' := by
  constructor
  case token =>
    intro v tok' hv
    obtain ⟨tok, ht, hspan⟩ := htokens hv
    rw [hspan]
    exact .own ht (callEntered_of_not_stepping hno v)
  case shelf =>
    intro k hk
    refine .inl ?_
    cases hk with
    | fallback hr => exact .fallback ((setting_of_regions hregions _).symm.trans hr)
    | publications hx hk => exact .publications (htxns ▸ hx) hk
    | release hm => exact .release (hagenda hm)

theorem Received.descends {e₀ : Engine ω} (h : Received host e message e')
    (hno : e₀.stepping = none) (htokens : e.tokens = e₀.tokens) (hregions : e.regions = e₀.regions)
    (htxns : e.transactions = e₀.transactions) (hagenda : e.agenda = e₀.agenda) :
    Descends e₀ e' := by
  have same : ∀ {v tok'}, e.tokens.get? v = some tok' →
      ∃ tok, e₀.tokens.get? v = some tok ∧ tok'.span = tok.span :=
    fun hv => ⟨_, htokens ▸ hv, rfl⟩
  cases h with
  | terminate | late | vetoedLate =>
    exact .of_same hno same hregions htxns fun hm => hagenda ▸ hm
  | @publish t tok v ht =>
    refine .of_same hno (fun {v' tok'} hv => ?_) hregions htxns fun hm => hagenda ▸ hm
    have hv : (e.tokens.modify t _).get? v' = some tok' := hv
    grind
  | halt | fail =>
    refine .of_same hno same hregions htxns fun hm => hagenda ▸ ?_
    exact (mem_cons.1 hm).resolve_left nofun
  | @vetoed t tok =>
    refine .of_same hno same hregions htxns fun {k v} hm => hagenda ▸ ?_
    have hm : .release k v ∈ (tok.txn.map Chore.abort).toList ++ [.killToken t] ++ e.agenda := hm
    cases htxn : tok.txn <;> simpa [htxn] using hm

theorem Engine.idle_descends (hready : e.ready = []) : Descends e (e.idle host).state := by
  have hno := stepping_of_empty hready
  have hregions : (e.idle host).state.regions = e.regions := idle_regions
  have hagenda : (e.idle host).state.agenda = e.agenda := idle_agenda
  have hidled := e.idled host
  generalize e.idle host = p at hidled hregions hagenda
  cases hidled with
  | await | stuck =>
    exact .of_same hno (fun hv => ⟨_, hv, rfl⟩) hregions rfl fun hm => hm
  | tick =>
    refine .of_same hno (fun {v tok'} hv => ?_) hregions ?_ fun hm => hagenda ▸ hm
    · have hv : e.dropDeadTimers.tick.tokens.get? v = some tok' := hv
      rw [tick_token] at hv
      split at hv
      · obtain ⟨tok, ht, rfl⟩ := Option.map_eq_some_iff.1 hv
        exact ⟨tok, ht, rfl⟩
      · exact ⟨tok', hv, rfl⟩
    · have heq : e.dropDeadTimers.tick = _ := wakeAll_eq _ e.dropDeadTimers.due
      show e.dropDeadTimers.tick.transactions = _
      rw [heq]
      rfl

/-- Every turn hands down what is known. -/
theorem Engine.turn_descends (hc : Coherent m e) {p : Progress ω} (hp : e.turn host = .ok p) :
    Descends e p.state := by
  cases turned hp with
  | chore he he' =>
    subst he
    exact perform_descends he'
  | done _ hh =>
    exact .of_same (stepping_of_halted hh) (fun hv => ⟨_, hv, rfl⟩) rfl rfl fun hm => hm
  | skip _ _ hready hskip =>
    exact .of_same (stepping_of_skip hready hskip) (fun hv => ⟨_, hv, rfl⟩) rfl rfl fun hm => hm
  | @step t tok ready node e' ha hh hready ht hphase hnode he' =>
    have hcore := hc.taken ha ready
    have hstep := stepping_of_step ha hh hready ht hphase hnode
    have hexecuted := executed hcore ht he'
    obtain ⟨mail, notices, hf⟩ := hc.footprint ha ht hphase he'
    constructor
    case token =>
      intro v tok' hv
      have hentered := callEntered_of_step hstep v
      rcases hexecuted.spans ht hv with (⟨rfl, hspan⟩ | ⟨hne, hv⟩) | ⟨hnone, hcopies, hspan⟩
      · rw [if_pos rfl] at hentered
        rw [hspan]
        cases hcall : node.callSpan with
        | some span => exact .call (hentered.trans hcall)
        | none => exact .own ht (hentered.trans hcall)
      · rw [if_neg (Ne.symm hne)] at hentered
        exact .own hv hentered
      · exact hspan ▸ .copy hnone hstep hcopies
    case shelf =>
      intro k hk
      rcases hexecuted.shelves hf hk with hk | ⟨place, hkeeps, rfl⟩
      · refine .inl ?_
        cases hk with
        | fallback hr => exact .fallback hr
        | publications hx hk => exact .publications hx hk
        | release hm => exact .release hm
      · exact .inr ⟨t, tok, node, place, hstep, hkeeps, rfl⟩
  | @message message inbox ha hh hready hinbox =>
    exact (received host { e with inbox } message).descends (stepping_of_empty hready) rfl rfl rfl rfl
  | idle ha hh hready hinbox => exact idle_descends hready

/-! ## Runs -/

/-- Every token knows the span of its last call, and so does what is set aside. -/
structure Spans (past : List (Engine ω)) (e : Engine ω) : Prop where
  token : ∀ {t tok}, e.tokens.get? t = some tok → LastCall past t tok.span
  shelf : ∀ {k}, e.Shelves k → ∃ before e₀ after t₀, past = before ++ e₀ :: after ∧
    e₀.SetsAside t₀ k ∧ LastCall before t₀ k.span

/-- The spans that tokens carry are handed down in a turn. -/
theorem Spans.turn {past : List (Engine ω)} (h : Spans past e) (hdescends : Descends e e') :
    Spans (past ++ [e]) e' := by
  constructor
  case token =>
    intro v tok' hv
    have hknown := hdescends.token hv
    generalize tok'.span = span at hknown
    cases hknown with
    | call hspan => exact .enters hspan
    | own ht hspan => exact .stays ht hspan (h.token ht)
    | copy ht hstep hnode =>
      obtain ⟨-, -, -, ht₀, -⟩ := stepping_eq_some hstep
      exact .copied ht hstep hnode (h.token ht₀)
    | resumption ht hk =>
      obtain ⟨before, e₀, after, t₀, rfl, hkept, hlast⟩ := h.shelf hk.shelves
      exact .resumed ht hk hkept hlast
  case shelf =>
    intro k hk
    rcases hdescends.shelf hk with hk | ⟨t, haside⟩
    · obtain ⟨before, e₀, after, t₀, rfl, hkept, hlast⟩ := h.shelf hk
      exact ⟨before, e₀, after ++ [e], t₀, by simp, hkept, hlast⟩
    · refine ⟨past, e, [], t, rfl, haside, ?_⟩
      obtain ⟨tok, node, place, hstep, -, rfl⟩ := haside
      obtain ⟨-, -, -, ht, -⟩ := stepping_eq_some hstep
      exact h.token ht

/-- In every run tokens know the span of their last call. -/
theorem Run.spans {past : History ω} {e : Engine (Logged ω)}
    (h : Run host program limit world past e) : Spans past e := by
  induction h with
  | start =>
    unfold opening
    rw [start_eq]
    constructor
    case token =>
      intro t tok ht
      rcases spawnReady_from ht with hnone | rfl
      · exact absurd (hnone.symm.trans (Store.get?_empty _)) nofun
      · exact .first
    case shelf =>
      intro k hk
      cases hk with
      | @fallback r p b hr =>
        -- there is but the region of the whole program
        rw [(spawnReady_grown ..).setting] at hr
        obtain ⟨reg, hreg, -, hkind⟩ := Engine.setting_eq_some.1 hr
        have hreg : (Store.empty.insert { parent := none, kind := .root }).get? r = some reg := hreg
        grind [Store.get?_empty]
      | publications hx =>
        rw [(spawnReady_grown ..).transactions] at hx
        exact absurd (hx.symm.trans (Store.get?_empty _)) nofun
      | release hm =>
        rw [spawnReady_agenda] at hm
        cases hm
  | turn hrun hp ih =>
    obtain ⟨m, hc⟩ := hrun.coherent
    exact ih.turn (turn_descends hc hp)
  | @arrive past e _ message ih =>
    refine ⟨ih.token, fun hk => ih.shelf ?_⟩
    cases hk with
    | fallback hr => exact .fallback hr
    | publications hx hk => exact .publications hx hk
    | release hm => exact .release hm

/-! ## Failures -/

section Failures

variable {e e' : Engine (Watched ω)}

/-- What was reported and how many failures were counted. -/
def Engine.diagnosis (e : Engine (Watched ω)) : List Failure × Nat :=
  (e.world.world.reports, e.stats.failures)

/-- The token `t` has just failed, which is reported as `f`. -/
structure Engine.Fails (e : Engine (Watched ω)) (t : TokenId) (f : Failure)
    (e' : Engine (Watched ω)) : Prop where
  agenda : e'.agenda = [.killToken t]
  token : ∃ tok, e'.tokens.get? t = some tok ∧ f.span = tok.span
  diagnosis : e'.diagnosis = (e.diagnosis.1 ++ [f], e.diagnosis.2 + 1)

/-- A turn from `e` to `e'` reports at most one failure. -/
def Engine.Reports (e e' : Engine (Watched ω)) : Prop :=
  e'.diagnosis = e.diagnosis ∨ ∃ t f, e.Fails t f e'

namespace Engine

theorem Reports.failed (ht : e'.tokens.get? t = some tok) (ha : e'.agenda = [])
    (hsame : e'.diagnosis = e.diagnosis) (error : TokenError) :
    e.Reports (e'.failed host.watched t tok error) := by
  refine .inr ⟨t, { span := tok.span, error }, ?_, ⟨tok, ht, rfl⟩, ?_⟩
  · show [.killToken t] ++ e'.agenda = _
    rw [ha]
    rfl
  · rw [← hsame]
    rfl

theorem spawn_diagnosis {id : TokenId} (h : e.spawn tok = some (id, e')) :
    e'.diagnosis = e.diagnosis := by
  unfold spawn at h
  split at h
  · cases h
    rfl
  · cases h

theorem spawnReady_diagnosis (tok : Token) : (e.spawnReady tok).diagnosis = e.diagnosis := by
  unfold spawnReady
  split
  · rename_i hs
    have hsame := spawn_diagnosis hs
    exact hsame
  · rfl

theorem askVotes_diagnosis (scope : Scope) (vote : Token) (cohorts : List CohortId) :
    (askVotes host.watched scope vote e cohorts).diagnosis = e.diagnosis := by
  refine askVotes_induct (P := fun e' => e'.diagnosis = e.diagnosis) ?_ rfl cohorts
  intro e₁ e₂ id c heq hs
  exact (spawn_diagnosis hs).trans heq

theorem confirms_reports (s : Scope) (cohorts : List CohortId) (w : Watched ω) :
    (cohorts.foldl (fun w c => host.watched.confirm c s w) w).world.reports =
      w.world.reports := by
  induction cohorts generalizing w with
  | nil => rfl
  | cons c cohorts ih => exact ih _

theorem park_diagnosis (t : TokenId) (c : GroupId) : (e.park t c).diagnosis = e.diagnosis := by
  unfold park
  split <;> rfl

end Engine

theorem Performed.diagnosis {a : Chore} (h : Performed host.watched e a e') :
    e'.diagnosis = e.diagnosis := by
  cases h with
  | @quiesce r reg =>
    unfold Engine.vacated react
    split
    · rfl
    · rfl
    · split
      · rfl
      · exact spawnReady_diagnosis _
    · rfl
    · rfl
  | prepare => exact askVotes_diagnosis ..
  | release => exact spawnReady_diagnosis _
  | verify => exact congrArg (·, e.stats.failures) (confirms_reports ..)
  | _ => rfl

theorem Received.reports (h : Received host.watched e message e') (ha : e.agenda = []) :
    e.Reports e' := by
  cases h with
  | fail ht => exact .failed ht ha rfl _
  | _ => exact .inl rfl

theorem Replied.reports (h : Replied host.watched e t tok site next reply e')
    (ht : e.tokens.get? t = some tok) (ha : e.agenda = []) (hsame : e.diagnosis = e₀.diagnosis) :
    e₀.Reports e' := by
  cases h with
  | publish | halt => exact .inl hsame
  | fail => exact .failed ht ha hsame _

/-- Only a site that fails makes a report. -/
theorem Served.reports (h : Served host.watched e t tok site values next e')
    (ht : e.tokens.get? t = some tok) (ha : e.agenda = []) (hsame : e.diagnosis = e₀.diagnosis) :
    e₀.Reports e' := by
  cases h with
  | immediate hmode hreply => exact hreply.reports ht ha hsame
  | outside hmode hscope hreply => exact hreply.reports ht ha hsame
  | inside hmode hscope hreply =>
    rw [enlist_eq] at hreply
    exact hreply.reports ht ha hsame
  | refused =>
    rw [enlist_eq]
    exact .inl hsame
  | launched | timer => exact .inl hsame
  | unspawned =>
    have hlaunched : (e.absorb (host.watched.launch site values t e.world)).2.diagnosis =
      e₀.diagnosis := hsame
    refine .failed ?_ ?_ hlaunched _
    · exact ht
    · exact ha
  | timerFailed => exact .failed ht ha hsame _

theorem Called.reports (h : Called host.watched e t tok target args next tail e')
    (ht : e.tokens.get? t = some tok) (ha : e.agenda = []) (hsame : e.diagnosis = e₀.diagnosis) :
    e₀.Reports e' := by
  cases h with
  | pending | argPending => exact .inl ((park_diagnosis ..).trans hsame)
  | uncallable | mismatch => exact .failed ht ha hsame _
  | enter => exact .inl hsame
  | site hv hargs hserved => exact hserved.reports ht ha hsame

theorem Executed.reports (h : Executed host.watched e t tok node e')
    (ht : e.tokens.get? t = some tok) (ha : e.agenda = []) : e.Reports e' := by
  cases h with
  | loadPending | fieldPending => exact .inl (park_diagnosis ..)
  | fieldFailed | forkFull | subgoalFull => exact .failed ht ha rfl _
  | @fork left right => exact .inl (spawnReady_diagnosis (e := e.count _) (tok.forkAt right))
  | subgoal hcap hs =>
    have hsame := spawn_diagnosis hs
    exact .inl hsame
  | @call target args next tail span e' hcalled =>
    have ht' : (e.becomes t { tok with span }).tokens.get? t = some { tok with span } := by
      rw [get?_becomes ht, if_pos rfl]
    exact hcalled.reports ht' ha rfl
  | _ => exact .inl rfl

theorem Idled.diagnosis (h : Idled host.watched e p) :
    p.state.diagnosis = e.diagnosis := by
  cases h with
  | await heffect =>
    obtain ⟨effect₁, heffect₁, rfl⟩ := Option.map_eq_some_iff.1 heffect
    obtain ⟨effect₂, -, rfl⟩ := Option.map_eq_some_iff.1 heffect₁
    rfl
  | stuck => rfl
  | tick =>
    have heq : e.dropDeadTimers.tick = _ := wakeAll_eq _ e.dropDeadTimers.due
    show (e.dropDeadTimers.tick.world.world.reports, e.dropDeadTimers.tick.stats.failures) = _
    rw [heq]
    rfl

/-- Every turn reports at most one failure, and counts it. -/
theorem Engine.turn_reports (hc : Coherent m e) (hp : e.turn host.watched = .ok p) :
    p.state.diagnosis = e.diagnosis ∨ ∃ t f e', p = .next e' ∧ e.Fails t f e' := by
  cases turned hp with
  | chore he he' =>
    subst he
    have hsame := (performed he').diagnosis
    exact .inl hsame
  | done => exact .inl rfl
  | skip => exact .inl rfl
  | @step t tok ready node e' ha hh hready ht hphase hnode he' =>
    have hcore := hc.taken ha ready
    rcases (executed hcore ht he').reports ht ha with hsame | ⟨t, f, hfails⟩
    · exact .inl hsame
    · exact .inr ⟨t, f, e', rfl, hfails.agenda, hfails.token, hfails.diagnosis⟩
  | @message message inbox ha hh hready hinbox =>
    rcases (received host.watched { e with inbox } message).reports ha with
      hsame | ⟨t, f, hfails⟩
    · exact .inl hsame
    · exact .inr ⟨t, f, _, rfl, hfails.agenda, hfails.token, hfails.diagnosis⟩
  | idle => exact .inl (e.idled host.watched).diagnosis

/-- The `i`-th report was made when a token failed, with the span of its last call. -/
def Accounted (host : Host ω) (past : List (Engine (Logged (Diagnosed ω)))) (i : Nat) (f : Failure) :
    Prop :=
  ∃ before e₀ after t e₁, past = before ++ e₀ :: after ∧
    e₀.turn host.diagnosed.logged = .ok (.next e₁) ∧ e₁.agenda = [.killToken t] ∧
    e₀.world.world.reports.length = i ∧ e₁.world.world.reports = e₀.world.world.reports ++ [f] ∧
    LastCall (before ++ [e₀]) t f.span

/-- In every run the failures that were counted were reported, each with the span of the last
    call. -/
theorem Run.accounted {past : List (Engine (Watched ω))}
    (h : Run host.diagnosed program limit { world } past e) :
    e.world.world.reports.length = e.stats.failures ∧
      ∀ {i f}, e.world.world.reports[i]? = some f → Accounted host past i f := by
  induction h with
  | start =>
    unfold opening
    rw [start_eq]
    exact ⟨rfl, nofun⟩
  | @turn past e p hrun hp ih =>
    obtain ⟨m, hc⟩ := hrun.coherent
    obtain ⟨hcount, hreports⟩ := ih
    have later : ∀ {i f}, Accounted host past i f → Accounted host (past ++ [e]) i f := by
      rintro i f ⟨before, e₀, after, t, e₁, rfl, hrest⟩
      exact ⟨before, e₀, after ++ [e], t, e₁, by simp, hrest⟩
    rcases turn_reports hc hp with hsame | ⟨t, f, e', rfl, hfails⟩
    · obtain ⟨hsame₁, hsame₂⟩ := Prod.mk.inj hsame
      rw [hsame₁, hsame₂]
      exact ⟨hcount, fun hf => later (hreports hf)⟩
    · have hnew : e'.world.world.reports = e.world.world.reports ++ [f] :=
        congrArg Prod.fst hfails.diagnosis
      have hcounted : e'.stats.failures = e.stats.failures + 1 :=
        congrArg Prod.snd hfails.diagnosis
      refine ⟨?_, fun {i f'} hf => ?_⟩
      · show e'.world.world.reports.length = e'.stats.failures
        rw [hnew, hcounted, length_append, hcount]
        rfl
      · have hf : e'.world.world.reports[i]? = some f' := hf
        rw [hnew] at hf
        by_cases hold : i < e.world.world.reports.length
        · rw [getElem?_append_left hold] at hf
          exact later (hreports hf)
        · have hi : i = e.world.world.reports.length := by grind
          subst hi
          obtain rfl : f = f' := by simpa using hf
          obtain ⟨tok, ht, hspan⟩ := hfails.token
          have hspans : Spans (past ++ [e]) e' := (hrun.turn hp).spans
          refine ⟨past, e, [], t, e', rfl, hp, hfails.agenda, rfl, hnew, ?_⟩
          rw [hspan]
          exact hspans.token ht
  | arrive _ message ih => exact ih

/-- Failures influence nothing but the diagnostics.  Beside every run goes one in which all sites
    decline instead of failing, with the same messages at the same moments: after every turn it has
    the same records, queues, clocks and counters, the same world and the same publications, and it
    ends when the other one ends.  Failures are counted as they are reported, and each report has the
    span of the last call that the token, or the one it comes from, has entered. -/
theorem failures_only_reported (host : Host ω) (program : Program) (limit : Option Nat) (world : ω)
    {past : List (Engine (Logged (Diagnosed ω)))}
    (h : Run host.diagnosed program limit { world } past e) :
    (∃ past' e', Run host.hush.diagnosed program limit { world } past' e' ∧
      List.Forall₂ Twin past past' ∧ Twin e e' ∧
      ∀ {p}, e.turn host.diagnosed.logged = .ok p →
        ∃ p', e'.turn host.hush.diagnosed.logged = .ok p' ∧ TwinProgress p p') ∧
    e.world.world.reports.length = e.stats.failures ∧
      ∀ {i f}, e.world.world.reports[i]? = some f → Accounted host past i f := by
  obtain ⟨past', e', hrun', hpast, htwin⟩ := h.twin
  obtain ⟨m, hc⟩ := h.coherent
  exact ⟨⟨past', e', hrun', hpast, htwin, fun hp => htwin.turn hc hp⟩, h.accounted⟩

/-- The host that answers with the first argument and fails if there is none. -/
def Host.picky : Host Unit :=
  { Host.echo with call := fun _ args _ => ⟨args.head?.elim (.fail (.arity 1 0)) .publish, (), []⟩ }

def Registry.picky : Registry := ⟨[⟨"echo", 0, .immediate⟩]⟩

/-- Two failures, the second one of the fallback of the first, `echo(1) >> (echo() ; 3.f)`. -/
def Expr.relapse : Expr :=
  .sequential (.call (.site "echo") [.literal (.int 1)] (.ofPoint ⟨0, 0, 0⟩ "relapse"))
    (.otherwise (.call (.site "echo") [] (.ofPoint ⟨12, 0, 12⟩ "relapse"))
      (.field (.literal (.int 3)) "f"))

/-- The second token that fails has entered no call itself, and is reported with the call before
    the place that was kept for it. -/
theorem failures_only_reported_relapse : ∃ p past e past' e' f₀ f₁,
    Expr.relapse.compile Registry.picky = .ok p ∧
      Run Host.picky.diagnosed p none { world := () } past e ∧
      Run Host.picky.hush.diagnosed p none { world := () } past' e' ∧ Twin e e' ∧
      e.stats.failures = 2 ∧ e.world.world.reports = [f₀, f₁] ∧
      f₀.span = .ofPoint ⟨12, 0, 12⟩ "relapse" ∧ f₁.span = .ofPoint ⟨0, 0, 0⟩ "relapse" ∧
      Accounted Host.picky past 0 f₀ ∧ Accounted Host.picky past 1 f₁ := by
  obtain ⟨p, past, e, hp, hrun, hcheck⟩ := Run.compiled Expr.relapse Registry.picky
    Host.picky.diagnosed none { world := () } 9 (fun e =>
      e.world.world.reports.map Failure.span =
        [.ofPoint ⟨12, 0, 12⟩ "relapse", .ofPoint ⟨0, 0, 0⟩ "relapse"])
    ⟨_, rfl, by decide +kernel⟩
  obtain ⟨⟨past', e', hrun', -, htwin, -⟩, hcount, hreports⟩ := failures_only_reported _ _ _ _ hrun
  obtain ⟨f₀, rest, hfound, hspan₀, hrest⟩ := map_eq_cons_iff.1 (of_decide_eq_true hcheck)
  obtain ⟨f₁, rest, rfl, hspan₁, hrest⟩ := map_eq_cons_iff.1 hrest
  cases map_eq_nil_iff.1 hrest
  rw [hfound] at hcount hreports
  exact ⟨p, past, e, past', e', f₀, f₁, hp, hrun, hrun', htwin, hcount.symm, hfound, hspan₀,
    hspan₁, hreports rfl, hreports rfl⟩

end Failures

end Orchestra
