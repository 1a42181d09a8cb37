import Flowline.Compile.Table
import Flowline.Proofs.Lower.Bodies

/-!
# Actions keep their meaning

The flow of an action is its lowered body with the transfer to the next stage behind it, simplified.
It does to every memory what the statements do, and sends the packet where they lead: to the exit
stage after an `exit`, and to the next stage otherwise.

A signed constant that a cast makes wider gets zeros in front, as in a condition.
-/

namespace Flowline.Compile

open ControlFlow (Graph Vertex)
open Lower
open Source (Expr)
open Switch (Allocator Memory Register)

/-- The argument of a parameter that stands for a constant. -/
def argument (sub : Substitution) (q : Text) : Int :=
  match sub.lookup q with
  | some (.const n _) => n
  | _ => 0

/-- **Actions keep their meaning.**  Whenever an action is lowered, with constants for its
parameters, its flow runs on every memory.  It leaves the memory that the statements leave, up to
the first `exit` or `return`, and sends the packet to the exit stage if that was an `exit`, and to
the next stage otherwise. -/
theorem run_runAction {sub : Substitution} {g : Graph} {act : Pipeline.Action} {next : Vertex}
    {flow : Flow.Action} {a a' : Allocator} (h : Yields (runAction sub g act next) a flow a')
    (hsub : ∀ q v, sub.lookup q = some v → ∃ n base, v = .const n base)
    (hsized : (Layout.of a').SizedAll (argument sub) act.body) (hport : (Layout.of a').PortFits)
    (texts : Text → Bool) (m : Memory) :
    flow.run a'.target m =
      some ((performAll .zero (Layout.of a') (argument sub) texts act.body m).1,
        some (((performAll .zero (Layout.of a') (argument sub) texts act.body m).2.stage?
          g.exit.id).getD next.id)) := by
  simp only [runAction, Lower.body, yields_bind, yields_pure] at h
  obtain ⟨body, b, ⟨⟨as, done⟩, c, hbody, rfl, rfl⟩, rfl, rfl⟩ := h
  have hargs : Binds sub (argument sub) := by
    intro q v hv
    obtain ⟨n, base, rfl⟩ := hsub q v hv
    exact ⟨base, by rw [argument, hv]⟩
  have hfollows := (ensures_statements hargs g.exit.id act.body texts).holds hbody (Grows.refl _)
    hsized hport
  obtain ⟨hrun, -⟩ := hfollows m
  have htarget : (Layout.of c).target = c.target := rfl
  rw [htarget] at hrun
  rw [Flow.Action.run_simplify, Flow.Action.run_all, Flow.Action.runAll, Flow.Action.run_all, hrun]
  rcases (performAll .zero (Layout.of _) (argument sub) texts act.body m).2 with _ | _ | _ <;> rfl

/-! ## An action with a parameter, parts of storage, and dead code -/

/-- The register of the output port. -/
def portRegister : Register :=
  { number := 0, bundle := 1, size := 32, low := 0, high := 15, owner := "out_port" }

/-- The register file with the output port reserved. -/
def portFile : Allocator := (Allocator.fresh {}).give "out_port" 16 portRegister

/-- A graph that is left at stage nine. -/
def sampleGraph : Graph := .ofPreds "Ingress" [] ⟨0, 1, "entry", .dummy⟩ ⟨1, 9, "exit", .dummy⟩

/-- The stage behind the table. -/
def sampleNext : Vertex := ⟨2, 5, "next", .dummy⟩

/-- A metadata field. -/
def sampleMeta : Expr := .field { name := "meta.x", type := { width := 8 } }

/-- The register of the metadata field, behind the output port. -/
def metaRegister : Register :=
  { number := 0, bundle := 1, size := 32, low := 16, high := 23, owner := "meta.x" }

/-- A packet field. -/
def samplePacket : Expr :=
  .field { name := "hdr.ip.tos", type := { width := 8 }, packet := some "nw_tos" }

/-- Sets the metadata field, copies a part of it, drops the packet, and exits. -/
def sampleAction : Pipeline.Action where
  control := "Ingress"
  name := "set"
  params := [{ name := "p", type := { width := 8 } }]
  body :=
    [.block [.assign sampleMeta (.param { name := "p", type := { width := 8 } } "Ingress.set")],
      .assign (.slice samplePacket 3 2) (.slice sampleMeta 1 0),
      .call none "mark_to_drop" [],
      .exit,
      .assign sampleMeta (.literal { value := 3 })]

/-- The parameter stands for seven. -/
def sampleArguments : Substitution := [("p", .const 7 10)]

theorem run_runAction_sampleAction :
    ∃ flow a', Yields (runAction sampleArguments sampleGraph sampleAction sampleNext) portFile
        flow a' ∧
      (Layout.of a').SizedAll (argument sampleArguments) sampleAction.body ∧
      (Layout.of a').PortFits ∧
      ∀ texts m, flow.run a'.target m =
        some ((performAll .zero (Layout.of a') (argument sampleArguments) texts
          sampleAction.body m).1, some 9) := by
  have hyields : Yields (runAction sampleArguments sampleGraph sampleAction sampleNext) portFile _
      (portFile.give "meta.x" 8 metaRegister) := rfl
  have hmeta : ∀ r ∈ some metaRegister, r.Covers 8 := by decide
  have hpacket : ∀ r ∈ some (Register.ofField "nw_tos" 8 0 7), r.Covers 8 := by decide
  have hsized : (Layout.of (portFile.give "meta.x" 8 metaRegister)).SizedAll
      (argument sampleArguments) sampleAction.body :=
    ⟨⟨⟨hmeta, by decide, by decide⟩, trivial⟩, ⟨hpacket, hmeta⟩, trivial, trivial, ⟨hmeta, trivial⟩,
      trivial⟩
  have hport : (Layout.of (portFile.give "meta.x" 8 metaRegister)).PortFits := by
    have hcovers : ∀ r ∈ some portRegister, r.Covers 16 := by decide
    exact ⟨hcovers, by decide⟩
  have hsub : ∀ q v, sampleArguments.lookup q = some v → ∃ n base, v = .const n base := by
    intro q v hv
    rw [sampleArguments, List.lookup_cons] at hv
    split at hv
    · cases hv
      exact ⟨7, 10, rfl⟩
    · cases hv
  exact ⟨_, _, hyields, hsized, hport, fun texts m =>
    run_runAction hyields hsub hsized hport texts m⟩

/-! ## Where signs matter -/

/-- Sets a signed field to a signed constant of four bits, all set, that a cast makes eight bits
wide. -/
def signedAction : Pipeline.Action where
  control := "Ingress"
  name := "widen"
  params := []
  body :=
    [.assign (.field { name := "meta.x", type := { width := 8, isSigned := true } })
      (.cast { width := 8, isSigned := true }
        (.literal { value := 15, width := 4, isSigned := true }))]

/-- With copies of its sign in front, the widened constant sets all eight bits, but the flow loads
zeros into the upper four. -/
theorem run_runAction_ne_signed :
    ∃ flow a', Yields (runAction [] sampleGraph signedAction sampleNext) portFile flow a' ∧
      (Layout.of a').SizedAll (argument []) signedAction.body ∧ (Layout.of a').PortFits ∧
      flow.run a'.target (fun _ => false) ≠
        some ((performAll .sign (Layout.of a') (argument []) (fun _ => true) signedAction.body
            (fun _ => false)).1,
          some (((performAll .sign (Layout.of a') (argument []) (fun _ => true) signedAction.body
            (fun _ => false)).2.stage? sampleGraph.exit.id).getD sampleNext.id)) := by
  have hyields : Yields (runAction [] sampleGraph signedAction sampleNext) portFile _
      (portFile.give "meta.x" 8 metaRegister) := rfl
  have hmeta : ∀ r ∈ some metaRegister, r.Covers 8 := by decide
  have hport : ∀ r ∈ some portRegister, r.Covers 16 := by decide
  refine ⟨_, _, hyields, ⟨⟨hmeta, by decide, trivial⟩, trivial⟩, ⟨hport, by decide⟩, fun heq => ?_⟩
  -- the fifth bit of the field
  have hbit := congrArg (Option.map fun o => o.1 (.file 20)) heq
  exact absurd hbit (by decide)

end Flowline.Compile
