import HindleyMilner.Infer.Run

/-!
Interactive sessions: an environment, a substitution and a supply of names that successive
commands share, and a separate supply for whole programs. A command that fails leaves the
environment and the substitution as they were; the names it took stay taken.
-/

namespace HindleyMilner

structure Session where
  env : Env := []
  subst : Subst := []
  counter : Nat := 0
  programCounter : Nat := 0

namespace Session

inductive Command where
  | fresh (count : Nat)
  | reset
  | extendEnv (name : Text) (type : Ty)
  | bind (name : Text) (type : Ty)
  | lookup (name : Text)
  | use (name : Text)
  | refineEnv
  | envFree
  | extendSubst (name : String) (type : Ty)
  | composeLeft (s : Subst)
  | composeRight (s : Subst)
  | apply (type : Ty)
  | unify (constraints : List Constraint)
  | generate (program : Program)
  | solve (program : Program)
  | infer (program : Program)
  | forms

inductive Reply where
  | nothing
  | type (t : Ty)
  | types (ts : List Ty)
  | names (names : List String)
  | binding (t : Option Ty)
  | used (t : Option Ty)
  | generated (g : Generated)
  | inferred (before after : Nat) (result : Except Fault Ty)
  | forms (env subst : String)

/-- Runs a computation on the names of the session. -/
def supply {α : Type} (session : Session) (m : Infer α) : Except Fault α × Session :=
  match m.run { counter := session.counter } with
  | .ok value trace => (.ok value, { session with counter := trace.counter })
  | .error fault trace => (.error fault, { session with counter := trace.counter })

def freshTypes : Nat → Infer (List Ty)
  | 0 => return []
  | count + 1 => do
      let first ← Infer.fresh
      let rest ← freshTypes count
      return first :: rest

private def withEnv (session : Session) (reply : Reply) :
    Except Fault Env → Except Fault Reply × Session
  | .ok env => (.ok reply, { session with env })
  | .error fault => (.error fault, session)

private def withSubst (session : Session) (reply : Reply) :
    Except Fault Subst → Except Fault Reply × Session
  | .ok subst => (.ok reply, { session with subst })
  | .error fault => (.error fault, session)

private def answer {α : Type} (session : Session) (reply : α → Reply) (m : Infer α) :
    Except Fault Reply × Session :=
  let (result, session) := session.supply m
  (result.map reply, session)

def step (session : Session) : Command → Except Fault Reply × Session
  | .fresh count => session.answer .types (freshTypes count)
  | .reset => (.ok .nothing, { session with counter := 0 })
  | .extendEnv name type => (.ok .nothing, { session with env := session.env.extend name type })
  | .bind name type =>
      let scheme := session.env.generalize type
      (.ok (.type scheme), { session with env := session.env.extend name scheme })
  | .lookup name => (.ok (.binding (session.env.get? name)), session)
  | .use name =>
      match session.env.get? name with
      | none => (.ok (.used none), session)
      | some scheme => session.answer (fun t => .used (some t)) (Infer.instantiate scheme)
  | .refineEnv => session.withEnv .nothing (session.env.refine session.subst)
  | .envFree => (.ok (.names session.env.free), session)
  | .extendSubst name type => session.withSubst .nothing (session.subst.extend name type)
  | .composeLeft s => (.ok .nothing, { session with subst := s.compose session.subst })
  | .composeRight s => (.ok .nothing, { session with subst := session.subst.compose s })
  | .apply type => ((session.subst.apply type).map .type, session)
  | .unify constraints =>
      session.withSubst .nothing
        ((Unify.solveFrom session.subst constraints).map Unify.Solution.subst)
  | .generate program => session.answer .generated (HindleyMilner.generate session.env program)
  | .solve program =>
      match session.supply (HindleyMilner.generate session.env program) with
      | (.error fault, session) => (.error fault, session)
      | (.ok g, session) =>
          match Unify.solveFrom session.subst g.constraints with
          | .error fault => (.error fault, session)
          | .ok solution =>
              ((solution.subst.apply g.type).map .type, { session with subst := solution.subst })
  | .infer program =>
      let before := session.programCounter
      match program.run false with
      | .ok result trace =>
          (.ok (.inferred before trace.counter (.ok result.type)),
            { session with programCounter := trace.counter })
      | .error fault trace =>
          (.ok (.inferred before trace.counter (.error fault)),
            { session with programCounter := trace.counter })
  | .forms => (.ok (.forms session.env.constructorForm session.subst.constructorForm), session)

end Session

end HindleyMilner
