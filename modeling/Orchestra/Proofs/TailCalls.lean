/-
  Tail calls: what calls without a frame change.

  A call whose continuation only returns needs no frame of its own, as the caller has nothing left to
  do but to hand on what it is given.  Here the machine that leaves such frames out is put beside the
  one that never does, which is the same machine on code without flags (`untailed`):

  1. **Mirrors**: both are at the same spot, and the stack of the first is that of the second without
     the frames that only return (`Pared`).

  2. **Trails**: the first machine is at the return to its caller, and the second is still on its way
     there, through the frames that the first one has not got.

  3. **Tracks** puts two paths beside each other: both take a step at a time, but where the second
     machine goes through a frame that only returns the first one waits.

  4. **The crux**: the second machine finds its way (`Tracks.catchUp`).  The frames that only return
     were pushed where the bindings in scope fit the code, so all that they unwind is there.
-/
import Orchestra.Proofs.Layout
import Orchestra.Proofs.Paths

namespace Orchestra

open List

/-! ## Code without tail calls -/

/-- The node without its flag. -/
def Node.untailed : Node → Node
  | .call target args next _ span => .call target args next false span
  | n => n

/-- The code in which no call is flagged, so that every call pushes a frame. -/
def Code.untailed (c : Code) : Code := { c with nodes := c.nodes.map Node.untailed }

def Program.untailed (p : Program) : Program := { p with code := p.code.untailed }

namespace Code

/-- Two codes that differ in flags only, of which those of the second one are in place. -/
structure Reflags (c c' : Code) : Prop where
  plain : ∀ {i : Nat} {n}, c.nodes[i]? = some n → n.callSpan = none → c'.nodes[i]? = some n
  call : ∀ {i next : Nat} {o os tail span}, c.nodes[i]? = some (.call o os next tail span) →
    ∃ tail', c'.nodes[i]? = some (.call o os next tail' span) ∧ (tail' = true → c'.Returns next)
  groups : c'.groups = c.groups

variable {c c' : Code}

theorem getElem?_untailed (c : Code) (i : Nat) :
    c.untailed.nodes[i]? = c.nodes[i]?.map Node.untailed := by
  simp [untailed]

theorem reflags_untailed (c : Code) : c.Reflags c.untailed where
  plain {i n} hi hn := by
    rw [getElem?_untailed, hi]
    cases n with
    | call => cases hn
    | _ => rfl
  call hi := by
    rw [getElem?_untailed, hi]
    exact ⟨false, rfl, nofun⟩
  groups := rfl

theorem Ordered.reflags (h : c.Ordered) : c.untailed.Reflags c where
  plain {i n} hi hn := by
    rw [getElem?_untailed] at hi
    obtain ⟨m, hm, rfl⟩ := Option.map_eq_some_iff.1 hi
    cases m with
    | call => cases hn
    | _ => exact hm
  call {i next o os tail span} hi := by
    rw [getElem?_untailed] at hi
    obtain ⟨m, hm, heq⟩ := Option.map_eq_some_iff.1 hi
    cases m with
    | call =>
      cases heq
      exact ⟨_, hm, (h.flagged hm).1⟩
    | _ => cases heq
  groups := rfl

theorem untailed_flag {i next : Nat} {o : Operand} {os : List Operand} {tail : Bool} {span : Span}
    (hi : c.untailed.nodes[i]? = some (.call o os next tail span)) : tail = false := by
  rw [getElem?_untailed] at hi
  obtain ⟨m, -, heq⟩ := Option.map_eq_some_iff.1 hi
  cases m with
  | call =>
    cases heq
    rfl
  | _ => cases heq

end Code

/-! ## Flags have nothing to do with types -/

section Reflags

variable {c c' : Code} (h : c.Reflags c')
include h

/-- What fits the code fits it with other flags for tail calls. -/
theorem Fits.reflag {i d k : Nat} {x : Exit} (hfits : Fits c i d k x) : Fits c' i d k x := by
  induction hfits with
  | stop hi => exact .stop (h.plain hi rfl)
  | load hi ho _ ih => exact .load (h.plain hi rfl) ho ih
  | field hi ho _ ih => exact .field (h.plain hi rfl) ho ih
  | push hi _ ih => exact .push (h.plain hi rfl) ih
  | unwind hi _ ih => exact .unwind (h.plain hi rfl) ih
  | fork hi _ _ ihl ihr => exact .fork (h.plain hi rfl) ihl ihr
  | subgoal hi _ _ ihl ihr => exact .subgoal (h.plain hi rfl) ihl ihr
  | resolve hi => exact .resolve (h.plain hi rfl)
  | otherwise hi _ _ ihl ihr => exact .otherwise (h.plain hi rfl) ihl ihr
  | escape hi _ ih => exact .escape (h.plain hi rfl) ih
  | atomic hi _ _ ihb ih => exact .atomic (h.plain hi rfl) ihb ih
  | buffer hi => exact .buffer (h.plain hi rfl)
  | declare hi hg _ _ ihd ih => exact .declare (h.plain hi rfl) (h.groups ▸ hg) ihd ih
  | call hi ho hos _ _ ih =>
    obtain ⟨tail', hi', htail⟩ := h.call hi
    exact .call hi' ho hos (fun ht => ih.of_returns (htail ht)) ih
  | ret hi => exact .ret (h.plain hi rfl)
  | publish hi => exact .publish (h.plain hi rfl)

theorem Value.Sound.reflag {v : Value} (hv : v.Sound c) : v.Sound c' := by
  intro group member env hw
  obtain ⟨defs, hdefs, hmember, hfits⟩ := hv hw
  exact ⟨defs, h.groups ▸ hdefs, hmember, fun d hd => (hfits d hd).reflag h⟩

theorem Sees.reflag {env : Env} {o : Operand} {v : Value} (hv : Sees c env o v) :
    Sees c' env o v := by
  cases hv with
  | value hb => exact .value hb
  | future hb hsound => exact .future hb (hsound.reflag h)

theorem Moves.reflag {s s' : Spot} (hmove : Moves c s s') : Moves c' s s' := by
  cases hmove with
  | load hi hv => exact .load (h.plain hi rfl) (hv.reflag h)
  | field hi hrecord hv => exact .field (h.plain hi rfl) (hrecord.reflag h) hv
  | push hi => exact .push (h.plain hi rfl)
  | unwind hi henv => exact .unwind (h.plain hi rfl) henv
  | forkLeft hi => exact .forkLeft (h.plain hi rfl)
  | forkRight hi => exact .forkRight (h.plain hi rfl)
  | subgoalLeft cell hi => exact .subgoalLeft cell (h.plain hi rfl)
  | subgoalRight hi => exact .subgoalRight (h.plain hi rfl)
  | otherwise hi => exact .otherwise (h.plain hi rfl)
  | fallback hi => exact .fallback (h.plain hi rfl)
  | escape hi => exact .escape (h.plain hi rfl)
  | atomic hi => exact .atomic (h.plain hi rfl)
  | release hi hv => exact .release (h.plain hi rfl) (hv.reflag h)
  | vote hi => exact .vote (h.plain hi rfl)
  | declare hi hdefs => exact .declare (h.plain hi rfl) (h.groups ▸ hdefs)
  | site hi ho hv =>
    obtain ⟨tail', hi', -⟩ := h.call hi
    exact .site hi' (ho.reflag h) (hv.reflag h)
  | message hv => exact .message (hv.reflag h)

theorem Calls.reflag {next : Nat} {tail : Bool} {s s' : Spot} (hcall : Calls c next tail s s') :
    ∃ tail', Calls c' next tail' s s' := by
  cases hcall with
  | intro hi ho hdefs hd harity hargs =>
    obtain ⟨tail', hi', -⟩ := h.call hi
    exact ⟨tail', .intro hi' (ho.reflag h) (h.groups ▸ hdefs) hd harity hargs⟩

end Reflags

/-- Calls are flagged where the caller only returns. -/
theorem Calls.flagged {c : Code} (h : c.Ordered) {next : Nat} {tail : Bool} {s s' : Spot}
    (hcall : Calls c next tail s s') : tail = true ↔ c.Returns next := by
  cases hcall with
  | intro hi => exact h.flagged hi

theorem Calls.unflagged {c : Code} {next : Nat} {tail : Bool} {s s' : Spot}
    (hcall : Calls c.untailed next tail s s') : tail = false := by
  cases hcall with
  | intro hi => exact Code.untailed_flag hi

/-! ## Machines beside each other -/

/-- The frames `fs` are what is left of `gs` without those that only return. -/
inductive Pared (c : Code) : List Frame → List Frame → Prop where
  | nil : Pared c [] []
  | kept {f : Frame} {fs gs : List Frame} (hf : ¬c.Returns f.next) (h : Pared c fs gs) :
    Pared c (f :: fs) (f :: gs)
  | gone {g : Frame} {fs gs : List Frame} (hg : c.Returns g.next) (h : Pared c fs gs) :
    Pared c fs (g :: gs)

/-- Both threads are at the same spot, and the first one lacks the frames that only return. -/
structure Mirrors (c : Code) (a b : Thread) : Prop where
  spot : a.spot = b.spot
  stack : Pared c a.stack b.stack

/-- The first thread is about to return, and the second one is on its way there. -/
structure Trails (c : Code) (a b : Thread) : Prop where
  here : c.nodes[a.spot.node]? = some .ret
  there : c.Returns b.spot.node
  result : a.spot.result = b.spot.result
  stack : Pared c a.stack b.stack

/-- Two paths, the latest threads first, that go along with each other: both take their steps at the
    same time, but where the second goes through a frame that only returns, the first one waits. -/
inductive Tracks (c : Code) : List Thread → List Thread → Prop where
  | start {a b : Thread} (h : Mirrors c a b) : Tracks c [a] [b]
  | both {a a' b b' : Thread} {as bs : List Thread} (h : Tracks c (a :: as) (b :: bs))
    (h' : Mirrors c a' b' ∨ Trails c a' b') : Tracks c (a' :: a :: as) (b' :: b :: bs)
  | skip {a b b' : Thread} {as bs : List Thread} (h : Tracks c (a :: as) (b :: bs))
    (h' : Trails c a b') : Tracks c (a :: as) (b' :: b :: bs)

/-- The frames that only return have the bindings that they unwind. -/
def Returnable (c : Code) (stack : List Frame) : Prop :=
  ∀ f ∈ stack, c.Returns f.next → Fits c f.next f.env.length 0 .ret

theorem Fits.unwound {c : Code} {i d k n next : Nat} {x : Exit} (h : Fits c i d k x)
    (hi : c.nodes[i]? = some (.unwind n next)) : n ≤ d ∧ Fits c next (d - n) k x := by
  cases h with
  | unwind hi' h => grind
  | _ => simp_all

/-- What only returns fits on its own, whatever the frames are. -/
theorem Walks.fits_of_returns {c : Code} {i d k : Nat} {x : Exit} {stack : List Frame}
    (h : Walks c i d stack k x) (hr : c.Returns i) : Fits c i d 0 .ret := by
  cases h with
  | last hfits hx => exact absurd (hfits.of_returns hr).2 hx
  | frame hfits _ =>
    obtain ⟨rfl, -⟩ := hfits.of_returns hr
    exact hfits

theorem Thread.Sound.fits_of_call {c : Code} {s s' : Spot} {stack : List Frame}
    (hs : Thread.Sound c ⟨s, stack⟩) {next : Nat} {tail : Bool} (hcall : Calls c next tail s s')
    (hr : c.Returns next) : Fits c next s.env.length 0 .ret := by
  obtain ⟨⟨way, hwalks, -, -⟩, -⟩ := hs
  cases hcall with
  | intro hi => exact (hwalks.inv hi).2.2.1.fits_of_returns hr

section Tracking

variable {c : Code} {start a : Thread} {as bs : List Thread}

/-- The second machine unwinds bindings until it is at the return. -/
theorem Tracks.unwind {i : Nat} {env : Env} {v : Value} {stack : List Frame} (hr : c.Returns i)
    (hfits : Fits c i env.length 0 .ret)
    (hpath : Path (Steps c.untailed) start (⟨⟨i, env, v⟩, stack⟩ :: bs))
    (htracks : Tracks c (a :: as) (⟨⟨i, env, v⟩, stack⟩ :: bs))
    (hwait : Trails c a ⟨⟨i, env, v⟩, stack⟩) :
    ∃ j env' bs', c.nodes[j]? = some .ret ∧
      Path (Steps c.untailed) start (⟨⟨j, env', v⟩, stack⟩ :: bs') ∧
      Tracks c (a :: as) (⟨⟨j, env', v⟩, stack⟩ :: bs') := by
  induction hr generalizing env bs with
  | @ret i hi => exact ⟨i, env, bs, hi, hpath, htracks⟩
  | @unwind i n next hi hr ih =>
    obtain ⟨hle, hnext⟩ := hfits.unwound hi
    rw [← length_drop] at hnext
    have henv : Chain.unwind? n env = some (env.drop n) := by
      rw [Chain.unwind?_eq, if_pos hle]
    have hwait' : Trails c a ⟨⟨next, env.drop n, v⟩, stack⟩ :=
      ⟨hwait.here, hr, hwait.result, hwait.stack⟩
    refine ih hnext (hpath.step (.move ?_)) (htracks.skip hwait') hwait'
    exact .unwind (c.reflags_untailed.plain hi rfl) henv

/-- The second machine goes through the frames that the first one has not got, until it is at the
    same return. -/
theorem Tracks.catchUp {f : Frame} {fs gs : List Frame} {j : Nat} {env : Env} {v : Value}
    (hpared : Pared c (f :: fs) gs) (hreturnable : Returnable c gs)
    (hj : c.nodes[j]? = some .ret) (hpath : Path (Steps c.untailed) start (⟨⟨j, env, v⟩, gs⟩ :: bs))
    (htracks : Tracks c (a :: as) (⟨⟨j, env, v⟩, gs⟩ :: bs)) (hhere : c.nodes[a.spot.node]? = some .ret)
    (hresult : a.spot.result = v) (hstack : a.stack = f :: fs) :
    ∃ j' env' gs' bs', c.nodes[j']? = some .ret ∧ Pared c fs gs' ∧ Returnable c gs' ∧
      Path (Steps c.untailed) start (⟨⟨j', env', v⟩, f :: gs'⟩ :: bs') ∧
      Tracks c (a :: as) (⟨⟨j', env', v⟩, f :: gs'⟩ :: bs') := by
  generalize hall : f :: fs = all at hpared
  induction hpared generalizing j env bs with
  | nil => cases hall
  | @kept g fs' gs hg hpared _ =>
    cases hall
    exact ⟨j, env, gs, bs, hj, hpared, fun f hf => hreturnable f (mem_cons_of_mem _ hf), hpath,
      htracks⟩
  | @gone g fs' gs hg hpared ih =>
    subst hall
    have hwait : Trails c a ⟨⟨g.next, g.env, v⟩, gs⟩ := ⟨hhere, hg, hresult, hstack ▸ hpared⟩
    have hpopped := hpath.step (.ret (c.reflags_untailed.plain hj rfl))
    obtain ⟨j', env', bs', hj', hpath', htracks'⟩ :=
      Tracks.unwind hg (hreturnable g mem_cons_self hg) hpopped (htracks.skip hwait) hwait
    exact ih (fun f hf => hreturnable f (mem_cons_of_mem _ hf)) hj' hpath' htracks' rfl

/-- The second machine goes along with every path of the first. -/
theorem Path.mirrored (hbased : c.Based) (hordered : c.Ordered) (hsound : start.Sound c)
    (hstart : start.stack = []) (h : Path (Steps c) start (a :: as)) :
    ∃ b bs, Path (Steps c.untailed) start (b :: bs) ∧ Tracks c (a :: as) (b :: bs) ∧
      Mirrors c a b ∧ Returnable c b.stack := by
  have hreflags := c.reflags_untailed
  generalize hall : a :: as = all at h
  induction h generalizing a as with
  | start =>
    cases hall
    have hmirrors : Mirrors c start start := ⟨rfl, hstart ▸ .nil⟩
    exact ⟨start, [], .start, .start hmirrors, hmirrors, by simp [Returnable, hstart]⟩
  | @step a₀ a' as₀ h hstep ih =>
    cases hall
    obtain ⟨⟨s, gs⟩, bs, hpath, htracks, hmirrors, hreturnable⟩ := ih rfl
    obtain ⟨s, fs⟩ := a₀
    obtain ⟨rfl, hpared⟩ := hmirrors
    cases hstep with
    | @move _ s' _ hmove =>
      have hmirrors : Mirrors c ⟨s', fs⟩ ⟨s', gs⟩ := ⟨rfl, hpared⟩
      exact ⟨_, _, hpath.step (.move (hmove.reflag hreflags)), htracks.both (.inl hmirrors), hmirrors,
        hreturnable⟩
    | @call _ s' _ next tail hcall =>
      obtain ⟨tail', hcall'⟩ := hcall.reflag hreflags
      obtain rfl := hcall'.unflagged
      have hflag := hcall.flagged hordered
      have hmirrors : Mirrors c ⟨s', if tail then fs else ⟨next, s.env⟩ :: fs⟩
          ⟨s', ⟨next, s.env⟩ :: gs⟩ := by
        refine ⟨rfl, ?_⟩
        cases tail with
        | true => exact .gone (hflag.1 rfl) hpared
        | false => exact .kept (fun hr => nomatch hflag.2 hr) hpared
      refine ⟨_, _, hpath.step (.call hcall'), htracks.both (.inl hmirrors), hmirrors, ?_⟩
      refine forall_mem_cons.2 ⟨fun hr => ?_, hreturnable⟩
      exact (h.sound hbased hsound).fits_of_call hcall hr
    | @ret _ f fs hi =>
      obtain ⟨j, env, gs', bs', hj, hpared', hreturnable', hpath', htracks'⟩ :=
        Tracks.catchUp hpared hreturnable hi hpath htracks hi rfl rfl
      have hmirrors : Mirrors c ⟨{ s with node := f.next, env := f.env }, fs⟩
          ⟨⟨f.next, f.env, s.result⟩, gs'⟩ := ⟨rfl, hpared'⟩
      exact ⟨_, _, hpath'.step (.ret (hreflags.plain hj rfl)), htracks'.both (.inl hmirrors), hmirrors,
        hreturnable'⟩

/-- On the way to a return there is nothing but unwinding. -/
theorem Moves.of_returns {s s' : Spot} (h : Moves c s s') (hr : c.Returns s.node) :
    (∃ v, v.Sound c ∧ s' = { s with result := v }) ∨
      ∃ next env, c.Returns next ∧ s' = { s with node := next, env } := by
  cases h with
  | message hv => exact .inl ⟨_, hv, rfl⟩
  | unwind hi henv =>
    cases hr with
    | ret hi' => cases hi.symm.trans hi'
    | unwind hi' hr =>
      cases hi.symm.trans hi'
      exact .inr ⟨_, _, hr, rfl⟩
  | _ => cases hr <;> simp_all

theorem Calls.not_returns {next : Nat} {tail : Bool} {s s' : Spot} (h : Calls c next tail s s') :
    ¬c.Returns s.node := by
  intro hr
  cases h with
  | intro hi =>
    cases hr with
    | ret hi' | unwind hi' => cases hi.symm.trans hi'

/-- The second machine returns while the first one is at the return: both return to the same caller,
    or the first one waits. -/
theorem Tracks.ret {s : Spot} {g : Frame} {gs : List Frame} (hpath : Path (Steps c) start (a :: as))
    (htracks : Tracks c (a :: as) (⟨s, g :: gs⟩ :: bs)) (hhere : c.nodes[a.spot.node]? = some .ret)
    (hresult : a.spot.result = s.result) (hpared : Pared c a.stack (g :: gs)) :
    ∃ a' as', Path (Steps c) start (a' :: as') ∧
      Tracks c (a' :: as') (⟨{ s with node := g.next, env := g.env }, gs⟩ :: ⟨s, g :: gs⟩ :: bs) ∧
      (Mirrors c a' ⟨{ s with node := g.next, env := g.env }, gs⟩ ∨
        Trails c a' ⟨{ s with node := g.next, env := g.env }, gs⟩) := by
  obtain ⟨r, fs⟩ := a
  cases hpared with
  | @kept _ fs _ hg hpared =>
    have hmirrors : Mirrors c ⟨{ r with node := g.next, env := g.env }, fs⟩
        ⟨{ s with node := g.next, env := g.env }, gs⟩ := by
      refine ⟨?_, hpared⟩
      show Spot.mk g.next g.env r.result = _
      rw [hresult]
    exact ⟨_, _, hpath.step (.ret hhere), htracks.both (.inl hmirrors), .inl hmirrors⟩
  | gone hg hpared =>
    have hwait : Trails c ⟨r, fs⟩ ⟨{ s with node := g.next, env := g.env }, gs⟩ :=
      ⟨hhere, hg, hresult, hpared⟩
    exact ⟨_, _, hpath, htracks.skip hwait, .inr hwait⟩

/-- The first machine goes along with every path of the second. -/
theorem Path.mirrors (hordered : c.Ordered) (hstart : start.stack = []) {b : Thread}
    (h : Path (Steps c.untailed) start (b :: bs)) :
    ∃ a as, Path (Steps c) start (a :: as) ∧ Tracks c (a :: as) (b :: bs) ∧
      (Mirrors c a b ∨ Trails c a b) := by
  have hreflags := hordered.reflags
  generalize hall : b :: bs = all at h
  induction h generalizing b bs with
  | start =>
    cases hall
    have hmirrors : Mirrors c start start := ⟨rfl, hstart ▸ .nil⟩
    exact ⟨start, [], .start, .start hmirrors, .inl hmirrors⟩
  | @step b₀ b' bs₀ h hstep ih =>
    cases hall
    obtain ⟨⟨r, fs⟩, as, hpath, htracks, hbeside⟩ := ih rfl
    rcases hbeside with ⟨hspot, hpared⟩ | ⟨hhere, hthere, hresult, hpared⟩
    · cases hstep with
      | @move s s' gs hmove =>
        obtain rfl : r = s := hspot
        have hmirrors : Mirrors c ⟨s', fs⟩ ⟨s', gs⟩ := ⟨rfl, hpared⟩
        exact ⟨_, _, hpath.step (.move (hmove.reflag hreflags)), htracks.both (.inl hmirrors),
          .inl hmirrors⟩
      | @call s s' gs next tail hcall =>
        obtain rfl : r = s := hspot
        obtain rfl := hcall.unflagged
        obtain ⟨tail, hcall'⟩ := hcall.reflag hreflags
        have hflag := hcall'.flagged hordered
        have hmirrors : Mirrors c ⟨s', if tail then fs else ⟨next, r.env⟩ :: fs⟩
            ⟨s', ⟨next, r.env⟩ :: gs⟩ := by
          refine ⟨rfl, ?_⟩
          cases tail with
          | true => exact .gone (hflag.1 rfl) hpared
          | false => exact .kept (fun hr => nomatch hflag.2 hr) hpared
        exact ⟨_, _, hpath.step (.call hcall'), htracks.both (.inl hmirrors), .inl hmirrors⟩
      | @ret s g gs hi =>
        obtain rfl : r = s := hspot
        exact htracks.ret hpath (hreflags.plain hi rfl) rfl hpared
    · cases hstep with
      | @move s s' gs hmove =>
        rcases (hmove.reflag hreflags).of_returns hthere with ⟨v, hv, rfl⟩ | ⟨next, env, hr, rfl⟩
        · have hwait : Trails c ⟨{ r with result := v }, fs⟩ ⟨{ s with result := v }, gs⟩ :=
            ⟨hhere, hthere, rfl, hpared⟩
          exact ⟨_, _, hpath.step (.move (.message hv)), htracks.both (.inr hwait), .inr hwait⟩
        · have hwait : Trails c ⟨r, fs⟩ ⟨{ s with node := next, env }, gs⟩ :=
            ⟨hhere, hr, hresult, hpared⟩
          exact ⟨_, _, hpath, htracks.skip hwait, .inr hwait⟩
      | call hcall => grind [Calls.reflag, Calls.not_returns]
      | ret hi => exact htracks.ret hpath hhere hresult hpared

end Tracking

/-! ## Tail calls -/

/-- The steps of a thread that are not calls without the flag. -/
def TailSteps (c : Code) (a b : Thread) : Prop :=
  Steps c a b ∧ ∀ next, ¬Calls c next false a.spot b.spot

/-- Without a call that is not flagged the stack never grows. -/
theorem Path.suffix_of_tail {c : Code} {a b : Thread} {bs : List Thread}
    (h : Path (TailSteps c) a (b :: bs)) : b.stack <:+ a.stack := by
  generalize hall : b :: bs = all at h
  induction h generalizing b bs with
  | start =>
    cases hall
    exact suffix_rfl
  | step h hstep ih =>
    cases hall
    refine List.IsSuffix.trans ?_ (ih rfl)
    obtain ⟨hstep, hcalls⟩ := hstep
    cases hstep with
    | move => exact suffix_rfl
    | @call s s' stack next tail hcall => grind
    | ret => exact suffix_cons ..

/-- Leaving out the frames of tail calls changes nothing but the stack.  The engine on the code as it
    is and the engine on the code without flags both lead their tokens along paths, through threads
    that the tokens of the run had before.  Beside every path
    of the first goes one of the second and the other way round: both are at the same nodes, with the
    same bindings and results and with the same callers, apart from those that only return, and where
    the second goes through one of these the first waits.  Calls are flagged where their continuation
    only returns, and along a path whose closure calls are all flagged the stack never grows. -/
theorem tail_calls_only_save_frames (expr : Expr) (sites : Registry) {p : Program}
    (hp : expr.compile sites = .ok p) :
    (∀ q ∈ [p, p.untailed], ∀ {ω : Type} {host : Host ω} {holds : ω → Value → Prop} {limit w e t tok},
      host.Honest holds → (∀ k, k.isClosure = true → ¬holds w k) →
      Reaches host holds (Engine.new q limit w).start e → e.agenda = [] →
      e.tokens.get? t = some tok →
        OnPath q.code q.thread (Seen host holds (Engine.new q limit w).start e) tok.thread) ∧
    (∀ {a as}, Path (Steps p.code) p.thread (a :: as) →
      ∃ b bs, Path (Steps p.untailed.code) p.untailed.thread (b :: bs) ∧
        Tracks p.code (a :: as) (b :: bs) ∧ Mirrors p.code a b) ∧
    (∀ {b bs}, Path (Steps p.untailed.code) p.untailed.thread (b :: bs) →
      ∃ a as, Path (Steps p.code) p.thread (a :: as) ∧ Tracks p.code (a :: as) (b :: bs)) ∧
    (∀ {i next : Nat} {o os tail span}, p.code.nodes[i]? = some (.call o os next tail span) →
      (tail = true ↔ p.code.Returns next)) ∧
    ∀ {a b bs}, Path (TailSteps p.code) a (b :: bs) → b.stack <:+ a.stack := by
  obtain ⟨hbased, hfits⟩ := fits_of_compile hp
  obtain ⟨hordered, -, -⟩ := Expr.compile_ordered hp
  have hreflags := p.code.reflags_untailed
  refine ⟨?_, ?_, ?_, hordered.flagged, Path.suffix_of_tail⟩
  · intro q hq ω host holds limit w e t tok hh hw hreach ha ht
    have hsound : ∀ c, WorldSound holds c w := fun c k hk hheld => absurd hheld (hw k hk)
    rcases mem_cons.1 hq with rfl | hq
    · exact hreach.onPath hbased hfits hh (hsound _) ha ht
    · cases mem_singleton.1 hq
      have hbased' : p.code.untailed.Based :=
        ⟨hreflags.plain hbased.halt rfl, hreflags.plain hbased.ret rfl,
          hreflags.plain hbased.publish rfl, hreflags.plain hbased.resolve rfl,
          hreflags.plain hbased.buffer rfl⟩
      exact hreach.onPath hbased' (hfits.reflag hreflags) hh (hsound _) ha ht
  · intro a as hpath
    obtain ⟨b, bs, hpath', htracks, hmirrors, -⟩ :=
      hpath.mirrored hbased hordered (Program.thread_sound hfits) rfl
    exact ⟨b, bs, hpath', htracks, hmirrors⟩
  · intro b bs hpath
    obtain ⟨a, as, hpath', htracks, -⟩ := hpath.mirrors hordered rfl
    exact ⟨a, as, hpath', htracks⟩

/-- `def f(x) = x >y> f(y)` under a call of `f`, which goes on for ever. -/
def Expr.circling : Expr :=
  .declare [.mk "f" 1 (.sequential (.value (.variable 0)) (.call (.variable 2) [.variable 0] .none))]
    (.call (.variable 0) [.literal (.int 1)] .none)

/-- In a run of the program a token has so many frames, and it is on its path. -/
def Program.Stacks (q : Program) (frames : Nat) : Prop :=
  ∃ e t tok, Reaches Host.echo (fun _ _ => False) (Engine.new q none ()).start e ∧ e.agenda = [] ∧
    e.tokens.get? t = some tok ∧ tok.stack.length = frames ∧
    OnPath q.code q.thread
      (Seen Host.echo (fun _ _ => False) (Engine.new q none ()).start e) tok.thread

/-- Whether the first token of the program has so many frames after twelve turns. -/
def Program.stacksSoon (q : Program) (frames : Nat) : Bool :=
  match (Engine.new q none ()).start.turns Host.echo 12 with
  | .ok (.unfinished, e) =>
    e.agenda.isEmpty && (e.tokens.get? ⟨0⟩).any fun tok => tok.stack.length = frames
  | _ => false

/-- After twelve turns the engine has one frame, and without flags it has four.  Beside the path of
    the first there is one that leads to what the first mirrors. -/
theorem tail_calls_only_save_frames_circling : ∃ p, Expr.circling.compile {} = .ok p ∧
    (∀ q ∈ [(p, 1), (p.untailed, 4)], q.1.Stacks q.2) ∧
    ∃ a b as bs, Path (Steps p.code) p.thread (a :: as) ∧ a.stack.length = 1 ∧
      Path (Steps p.untailed.code) p.untailed.thread (b :: bs) ∧ Mirrors p.code a b := by
  obtain ⟨p, hp, hcheck⟩ : ∃ p, Expr.circling.compile {} = .ok p ∧
      ([(p, 1), (p.untailed, 4)].all fun q => q.1.stacksSoon q.2) = true :=
    ⟨_, rfl, by decide +kernel⟩
  obtain ⟨honPath, hmirrored, -⟩ := tail_calls_only_save_frames _ _ hp
  have hboth : ∀ q ∈ [(p, 1), (p.untailed, 4)], q.1.Stacks q.2 := by
    intro q hq
    have hfound := all_eq_true.1 hcheck q hq
    unfold Program.stacksSoon at hfound
    split at hfound
    · rename_i e hturns
      simp only [Bool.and_eq_true, decide_eq_true_eq, List.isEmpty_iff, Option.any_eq_true] at hfound
      obtain ⟨ha, tok, ht, hlength⟩ := hfound
      have hreach : Reaches Host.echo (fun _ _ => False) _ e := .of_turns .refl hturns
      exact ⟨e, _, tok, hreach, ha, ht, hlength, honPath q.1 (mem_map_of_mem hq)
        Host.echo_honest (fun _ _ hheld => hheld) hreach ha ht⟩
    · cases hfound
  refine ⟨p, hp, hboth, ?_⟩
  obtain ⟨e, t, tok, -, -, -, hlength, as, hpath, -⟩ := hboth (p, 1) (mem_cons_self ..)
  obtain ⟨b, bs, hpath', -, hmirrors⟩ := hmirrored hpath
  exact ⟨tok.thread, b, as, bs, hpath, hlength, hpath', hmirrors⟩

end Orchestra
