/-
  Turns and runs.

  A TURN is one transition of an engine.  What it does is the first of these that there is:

  1. the topmost chore of the agenda;
  2. nothing more, if the run has halted;
  3. a step of the first token in the queue;
  4. the first message of the inbox;
  5. a tick of all clocks, if any of them has a timer to wait for;
  6. a wait for the host.

  So virtual time passes only when nothing else can happen without it, and the engine waits for
  the world outside only when virtual time has nothing left to bring about.  A run is a sequence
  of turns, as many as it takes or as many as are allowed.
-/
import Orchestra.Engine.Dispatch

namespace Orchestra

/-- How a run ends. -/
inductive Ending where
  /-- Nothing is left of the program, or the run was told to end. -/
  | done
  /-- Nothing can ever happen again, yet something is left of the program. -/
  | stuck
  /-- More turns would be needed than were allowed. -/
  | unfinished
deriving DecidableEq, Repr

/-- What a turn leads to. -/
inductive Progress (ω : Type) where
  | next (e : Engine ω)
  | ended (how : Ending) (e : Engine ω)

/-- The name to report a failed answer under: that of the site called, and for a vote, which
    calls no site, a general word. -/
def Phase.answering : Phase → String
  | .calling site => site
  | _ => "cohort"

namespace Engine

variable {ω : Type}

/-! ## What arrives from outside -/

/-- Takes a message.  One for a token that is gone is ignored. -/
def receive (h : Host ω) (e : Engine ω) : Message → Engine ω
  | .terminate => { e with halted := true }
  | .returned t reply =>
    match e.tokens.get? t with
    | none => e
    | some token =>
      match reply with
      | .publish v =>
        (e.onToken t fun token => { token with result := v, phase := .runnable }).enqueue t
      | .halt => e.plan [.killToken t]
      | .fail error => e.fail h t (.site token.phase.answering error)
  | .vetoed t =>
    match e.tokens.get? t with
    | none => e
    | some token => e.plan ((token.txn.map Chore.abort).toList ++ [.killToken t])

/-! ## Clocks -/

/-- Drops the timers of tokens that are gone. -/
def dropDeadTimers (e : Engine ω) : Engine ω :=
  { e with clocks := e.clocks.map fun c => c.retain e.tokens.contains }

/-- Ticks all clocks once.  The tokens whose timers are due go on, those of the first clock
    first. -/
def tick (e : Engine ω) : Engine ω :=
  let ticked := e.clocks.map Clock.tick
  let e := { e with clocks := ticked.map Prod.snd }
  let e := e.count fun s => { s with ticks := s.ticks + 1 }
  (ticked.flatMap Prod.fst).foldl wake e

/-! ## Turns -/

/-- A turn with an empty queue and an empty inbox. -/
def idle (h : Host ω) (e : Engine ω) : Progress ω :=
  let e := e.dropDeadTimers
  if e.clocks.all Clock.isIdle then
    match h.await e.world with
    | some effect => .next (e.absorb effect).2
    | none => .ended .stuck e
  else
    let e := e.tick
    .next (e.absorb (h.yield e.world)).2

/-- A turn. -/
def turn (h : Host ω) (e : Engine ω) : Except Fault (Progress ω) :=
  match e.agenda with
  | chore :: agenda => return .next (← { e with agenda }.perform h chore)
  | [] =>
    if e.halted then .ok (.ended .done e)
    else
      match e.ready with
      | t :: ready => return .next (← { e with ready }.dispatch h t)
      | [] =>
        match e.inbox with
        | message :: inbox => .ok (.next ({ e with inbox }.receive h message))
        | [] => .ok (e.idle h)

/-! ## Runs -/

/-- An engine that has not begun. -/
def new (program : Program) (limit : Option Nat) (world : ω) : Engine ω :=
  { program, limit, world }

/-- Puts the first token at the entry, the first time it is asked for. -/
def start (e : Engine ω) : Engine ω :=
  if e.started then e
  else
    let group := e.groups.next
    let region := e.regions.next
    let e := { e with
      started := true
      groups := e.groups.insert { parent := none, kind := .root }
      regions := e.regions.insert { parent := none, kind := .root } }
    e.spawnReady
      { node := e.program.entry, env := [], stack := [], result := .signal, group, region,
        txn := none, span := .none, phase := .runnable }

/-- Takes as many turns as it takes, but no more than allowed. -/
def turns (h : Host ω) : Nat → Engine ω → Except Fault (Ending × Engine ω)
  | 0, e => .ok (.unfinished, e)
  | allowed + 1, e =>
    match e.turn h with
    | .error fault => .error fault
    | .ok (.ended how e) => .ok (how, e)
    | .ok (.next e) => turns h allowed e

/-- Runs the program, or what is left of it. -/
def run (h : Host ω) (allowed : Nat) (e : Engine ω) : Except Fault (Ending × Engine ω) :=
  e.start.turns h allowed

/-- More turns than a run takes change nothing about it. -/
theorem turns_add (h : Host ω) {n : Nat} {e e' : Engine ω} {how : Ending}
    (hn : e.turns h n = .ok (how, e')) (hhow : how ≠ .unfinished) (m : Nat) :
    e.turns h (n + m) = .ok (how, e') := by
  induction n generalizing e with
  | zero =>
    -- no turn was taken, so the run is unfinished
    simp only [turns, Except.ok.injEq, Prod.mk.injEq] at hn
    exact absurd hn.1.symm hhow
  | succ n ih =>
    rw [Nat.succ_add]
    unfold turns at hn ⊢
    split at hn
    · exact hn
    · exact hn
    · exact ih hn

end Engine
end Orchestra
