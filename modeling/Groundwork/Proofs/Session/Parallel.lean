import Groundwork.Proofs.Grounding.Alone
import Groundwork.Proofs.Session.Forwarding
import Groundwork.Proofs.Session.Strategies

/-!
# Grounding by several workers

Rules are cut into chunks, and each chunk is grounded by a worker of its own.  A worker goes through
its chunk rule by rule and stops at the first rule that fails.  The workers of a *crew* share only
tables that do not change, so that they can take their steps in any order.  Once all of them have
stopped, their results are joined in the order of the chunks, and the error is that of the first
chunk that has one.

What a worker will answer in the end is known from the beginning.  No step changes it
(`Worker.Step.answer_eq`), so every run of a crew ends with the results and with the error that the
rules have one after the other (`joined_of_run`).

* `Run.exists_stopped`, `wellFounded_crewStep`: every run of a crew can be completed, and none goes
  on forever;
* `parallel_matches_serial`: crews of any size, and sessions that ground in parallel.
-/

namespace Groundwork

namespace Grounder

variable {g : Grounder}

/-! ## Workers -/

/-- A worker between two rules of its chunk. -/
inductive Worker where
  /-- It has found some results, and has yet to ground some rules. -/
  | grounding (done : List Grounded) (pending : List Rule)
  /-- A rule could not be grounded. -/
  | failed (e : GroundError)

namespace Worker

/-- The rules that are yet to be grounded. -/
def pending : Worker → List Rule
  | grounding _ pending => pending
  | failed _ => []

/-- What has been found so far. -/
def outcome : Worker → Except GroundError (List Grounded)
  | grounding done _ => .ok done
  | failed e => .error e

/-- What will have been found in the end. -/
def answer (g : Grounder) : Worker → Except GroundError (List Grounded)
  | grounding done pending => (done ++ ·) <$> pending.mapM g.ground
  | failed e => .error e

/-- The next rule is grounded. -/
inductive Step (g : Grounder) : Worker → Worker → Prop where
  | found {done : List Grounded} {rule : Rule} {rest : List Rule} {result : Grounded}
      (h : g.ground rule = .ok result) :
      Step g (grounding done (rule :: rest)) (grounding (done ++ [result]) rest)
  | failed {done : List Grounded} {rule : Rule} {rest : List Rule} {e : GroundError}
      (h : g.ground rule = .error e) : Step g (grounding done (rule :: rest)) (failed e)

theorem Step.answer_eq {w w' : Worker} (h : Step g w w') : w'.answer g = w.answer g := by
  cases h with
  | @found done rule rest result h =>
    show (done ++ [result] ++ ·) <$> rest.mapM g.ground = (done ++ ·) <$> (rule :: rest).mapM g.ground
    rw [List.mapM_cons, h]
    cases rest.mapM g.ground with
    | error e => rfl
    | ok results => exact congrArg Except.ok (List.append_assoc ..)
  | @failed done rule rest e h =>
    show Except.error e = (done ++ ·) <$> (rule :: rest).mapM g.ground
    rw [List.mapM_cons, h]
    rfl

theorem Step.length_pending_lt {w w' : Worker} (h : Step g w w') :
    w'.pending.length < w.pending.length := by
  cases h <;> simp [pending]

/-- A worker with a rule left can go on. -/
theorem exists_step {w : Worker} (h : w.pending ≠ []) : ∃ w', Step g w w' := by
  match w with
  | failed e => exact absurd rfl h
  | grounding done [] => exact absurd rfl h
  | grounding done (rule :: rest) =>
    cases hrule : g.ground rule with
    | ok result => exact ⟨_, .found hrule⟩
    | error e => exact ⟨_, .failed hrule⟩

theorem answer_of_stopped {w : Worker} (h : w.pending = []) : w.answer g = w.outcome := by
  cases w with
  | failed e => rfl
  | grounding done pending =>
    obtain rfl : pending = [] := h
    show Except.ok (done ++ []) = Except.ok done
    rw [List.append_nil]

theorem answer_grounding (chunk : List Rule) : (grounding [] chunk).answer g = chunk.mapM g.ground :=
  id_map _

end Worker

/-! ## Crews -/

/-- The chunks into which rules are cut for so many workers. -/
def chunksFor (workers : Nat) (rules : List Rule) : List (List Rule) :=
  chunks ((rules.length + (max workers 1 - 1)) / max workers 1) rules

/-- One worker for each chunk, before any rule is grounded. -/
def crew (workers : Nat) (rules : List Rule) : List Worker :=
  (chunksFor workers rules).map (.grounding [])

/-- Some worker of the crew grounds its next rule. -/
inductive CrewStep (g : Grounder) : List Worker → List Worker → Prop where
  | here {w w' : Worker} (ws : List Worker) (h : w.Step g w') : CrewStep g (w :: ws) (w' :: ws)
  | there (w : Worker) {ws ws' : List Worker} (h : CrewStep g ws ws') :
      CrewStep g (w :: ws) (w :: ws')

/-- The steps of a crew, in any order of its workers. -/
def Run (g : Grounder) : List Worker → List Worker → Prop :=
  Relation.ReflTransGen (CrewStep g)

/-- No worker of the crew has a rule left. -/
def Stopped (ws : List Worker) : Prop :=
  ∀ w ∈ ws, w.pending = []

/-- The results of the workers, joined, or the error of the first one that has one. -/
def joined (ws : List Worker) : Except GroundError (List Grounded) := do
  return (← ws.mapM Worker.outcome).flatten

theorem CrewStep.map_answer {ws ws' : List Worker} (h : CrewStep g ws ws') :
    ws'.map (·.answer g) = ws.map (·.answer g) := by
  induction h with
  | here ws h => rw [List.map_cons, List.map_cons, h.answer_eq]
  | there w _ ih => rw [List.map_cons, List.map_cons, ih]

theorem CrewStep.length_pending_lt {ws ws' : List Worker} (h : CrewStep g ws ws') :
    (ws'.flatMap Worker.pending).length < (ws.flatMap Worker.pending).length := by
  induction h with
  | here ws h =>
    have hless := h.length_pending_lt
    simp only [List.flatMap_cons, List.length_append]
    omega
  | there w _ ih =>
    simp only [List.flatMap_cons, List.length_append]
    omega

/-- Each step takes a rule, so that no run goes on forever. -/
theorem wellFounded_crewStep (g : Grounder) :
    WellFounded fun later earlier : List Worker => CrewStep g earlier later :=
  Subrelation.wf (fun h => h.length_pending_lt)
    (measure fun ws : List Worker => (ws.flatMap Worker.pending).length).wf

theorem exists_crewStep {ws : List Worker} (h : ¬ Stopped ws) : ∃ ws', CrewStep g ws ws' := by
  induction ws with
  | nil => exact absurd (fun _ hw => by cases hw) h
  | cons w ws ih =>
    by_cases hw : w.pending = []
    · obtain ⟨ws', hstep⟩ := ih fun hstopped => h (List.forall_mem_cons.2 ⟨hw, hstopped⟩)
      exact ⟨w :: ws', .there w hstep⟩
    · obtain ⟨w', hstep⟩ := Worker.exists_step (g := g) hw
      exact ⟨w' :: ws, .here ws hstep⟩

/-- The induction is on the rules that are left. -/
theorem exists_stopped (ws : List Worker) : ∃ last, Run g ws last ∧ Stopped last := by
  induction ws using (wellFounded_crewStep g).induction with
  | _ ws ih =>
    by_cases hstopped : Stopped ws
    · exact ⟨ws, .refl, hstopped⟩
    · obtain ⟨ws', hstep⟩ := exists_crewStep (g := g) hstopped
      obtain ⟨last, hrun, hlast⟩ := ih ws' hstep
      exact ⟨last, .head hstep hrun, hlast⟩

theorem Run.map_answer {ws ws' : List Worker} (h : Run g ws ws') :
    ws'.map (·.answer g) = ws.map (·.answer g) := by
  induction h with
  | refl => rfl
  | tail _ hstep ih => exact hstep.map_answer.trans ih

/-- Workers that have stopped have found what they answer. -/
theorem joined_of_stopped {ws : List Worker} (h : Stopped ws) :
    joined ws = (do return (← (ws.map (·.answer g)).mapM id).flatten) := by
  have houtcomes : ws.map (·.answer g) = ws.map Worker.outcome :=
    List.map_congr_left fun w hw => Worker.answer_of_stopped (h w hw)
  rw [houtcomes, List.mapM_map]
  rfl

/-- In whatever order the workers take their steps, they find what the rules ground to one after
the other. -/
theorem joined_of_run {workers : Nat} {rules : List Rule} {ws : List Worker}
    (hrun : Run g (crew workers rules) ws) (hstopped : Stopped ws) :
    joined ws = rules.mapM g.ground := by
  have hanswers : (crew workers rules).map (·.answer g) =
      (chunksFor workers rules).map fun chunk => chunk.mapM g.ground := by
    rw [crew, List.map_map]
    exact List.map_congr_left fun chunk _ => Worker.answer_grounding chunk
  rw [← groundChunked_eq g workers, joined_of_stopped hstopped, hrun.map_answer, hanswers]
  rfl

end Grounder

namespace Session

variable {β : Type}

/-! ## Options during a pass -/

/-- The session with other options. -/
def reoption (f : Options → Options) (s : Session β) : Session β :=
  { s with options := f s.options }

/-- Once the rules are grounded, no option is looked at. -/
theorem outsidePasses_reoption [Backend β] (f : Options → Options) :
    OutsidePasses (reoption (β := β) f) where
  atoms _ := rfl
  encoded _ _ _ := rfl
  rulesUnfolded _ _ := rfl
  handClause _ := Maps.bind (Maps.modifyGet fun _ => rfl) fun _ => Maps.bind (maps_orFail _ _) fun _ =>
    Maps.bind (Maps.modify fun _ => rfl) fun _ => Maps.modify fun _ => rfl

/-! ## Passes -/

open Grounder

/-- Shared enumeration goes before, and else chunks make no difference. -/
theorem pass_parallelGrounding [Backend β] (s : Session β) :
    (s.after (.setOption (.parallelGrounding true))).pass .unfoldInstance =
      (s.after (.setOption (.parallelGrounding false))).pass .unfoldInstance := by
  show (s.grounder []).groundAll
      (if s.options.groupRules then .shared else .chunked s.host.workers) s.rules.toList =
    (s.grounder []).groundAll
      (if s.options.groupRules then .shared else .serial) s.rules.toList
  split
  · rfl
  · exact groundChunked_eq (s.grounder []) s.host.workers s.rules.toList

theorem exec_unfoldInstance_parallel [Backend β] (s : Session β) :
    exec unfoldInstance (s.after (.setOption (.parallelGrounding true))) =
      ((exec unfoldInstance (s.after (.setOption (.parallelGrounding false)))).1,
        (exec unfoldInstance (s.after (.setOption (.parallelGrounding false)))).2.after
          (.setOption (.parallelGrounding true))) := by
  have hagain : s.after (.setOption (.parallelGrounding true)) =
      (s.after (.setOption (.parallelGrounding false))).reoption
        fun o => { o with parallelGrounding := true } := rfl
  rw [exec_unfoldInstance, exec_unfoldInstance, pass_parallelGrounding s, hagain]
  exact (outsidePasses_reoption _).unfoldGrounded _ _

/-- Whether rules are grounded in parallel makes no difference to what they ground to: the results
are in the order of the rules, and the error is that of the first rule that fails.  Crews of any
size end with them, whatever the order of their steps.  So passes over an instance have the same
answer and end in the same session, but for the option itself. -/
theorem parallel_matches_serial [Backend β] :
    (∀ (g : Grounder) (workers : Nat) (rules : List Rule),
      g.groundChunked workers rules = rules.mapM g.ground ∧
      (∀ results, g.groundChunked workers rules = .ok results ↔
        List.Forall₂ (fun r result => g.ground r = .ok result) rules results) ∧
      (∀ e, g.groundChunked workers rules = .error e ↔
        ∃ before r after, rules = before ++ r :: after ∧
          (∀ earlier ∈ before, ∃ result, g.ground earlier = .ok result) ∧ g.ground r = .error e) ∧
      ∀ ws, Run g (crew workers rules) ws →
        (∃ last, Run g ws last ∧ Stopped last) ∧
          (Stopped ws → joined ws = rules.mapM g.ground)) ∧
    ∀ s : Session β,
      (∀ workers,
        exec (unfoldGrounded ((s.grounder []).groundAll (.chunked workers) s.rules.toList)) s =
          exec (unfoldGrounded ((s.grounder []).groundAll .serial s.rules.toList)) s) ∧
      let parallel := s.after (.setOption (.parallelGrounding true))
      let serial := s.after (.setOption (.parallelGrounding false))
      exec unfoldInstance parallel =
        ((exec unfoldInstance serial).1,
          (exec unfoldInstance serial).2.after (.setOption (.parallelGrounding true))) := by
  refine ⟨fun g workers rules => ⟨groundChunked_eq g workers rules, fun results => ?_, fun e => ?_,
    fun ws hrun => ⟨exists_stopped ws, joined_of_run hrun⟩⟩, fun s =>
      ⟨fun workers => ?_, exec_unfoldInstance_parallel s⟩⟩
  · rw [groundChunked_eq, Fallible.mapM_eq_ok_iff_forall₂]
  · rw [groundChunked_eq, Fallible.mapM_eq_error_iff]
  · rw [groundAll, groundAll, groundChunked_eq]

/-! ### Several rules that fail -/

/-- A fact about a constant. -/
def factRule (constant : String) : Rule where
  kind := .assertion
  heads := [.predicate "p" [constant]]
  body := []
  vars := []

theorem ground_factRule_e : ((populated corners).grounder []).ground (factRule "e") =
    .error (.unknownVariableSort "e") := by
  have hunknown : ((populated corners).grounder []).sorts.isConstant "e" = false := by
    rw [Bool.eq_false_iff]
    intro hconstant
    exact absurd (populated_corners.isConstant_iff.1 hconstant) (by decide)
  have hterms : (factRule "e").constantTerms = ["e"] := rfl
  unfold ground ranges
  rw [hterms, List.find?_cons_of_pos (by rw [hunknown]; rfl)]
  rfl

/-- Four rules go to two of three workers, and both of these fail. -/
theorem parallel_matches_serial_faulty :
    ∃ last, Run ((populated corners).grounder [])
        (crew 3 [notRule, factRule "e", factRule "f", eitherRule]) last ∧
      Stopped last ∧ joined last = .error (.unknownVariableSort "e") := by
  obtain ⟨_, _, herror, hruns⟩ := (parallel_matches_serial (β := Solver)).1
    ((populated corners).grounder []) 3 [notRule, factRule "e", factRule "f", eitherRule]
  obtain ⟨last, hrun, hstopped⟩ := (hruns _ .refl).1
  refine ⟨last, hrun, hstopped, ((hruns last hrun).2 hstopped).trans ?_⟩
  rw [← groundChunked_eq _ 3]
  refine (herror _).2 ⟨[notRule], factRule "e", _, rfl, ?_, ground_factRule_e⟩
  rintro earlier hearlier
  rw [List.mem_singleton.1 hearlier]
  exact ⟨_, ground_notRule⟩

end Session

end Groundwork
