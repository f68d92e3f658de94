import Mathlib.Data.Nat.Notation
import Mathlib.Logic.Function.Basic
import RegionPooling.Pooling.Buffers

/-!
# Sessions

A session is what a caller of the library can hold and do: pooled shapes, buffers for any number of
kinds of elements, and tables of winners, all obtained from the library's own operations. Each
buffers and each table carries along the pass that filled it last; no operation reads that note.

An operation that is refused leaves the session as it was, and so does one that names what is not
held. A run ends where an operation leaves its storage, or asks for more bins than can be counted.
-/

namespace RegionPooling

/-- Inputs of a pass: the kind of its elements, the regions, the shape of the map and the
configuration. -/
structure Pass (ι : Type) where
  kind : ι
  regions : List Region
  map : Shape
  config : PoolConfig

/-- Value with the pass that filled it last, if one did. -/
structure Noted (ι β : Type) where
  value : β
  pass : Option (Pass ι)

/-- What a caller holds. -/
structure Session {ι : Type} (E : ι → Type) where
  shapes : List PooledShape
  buffers : (i : ι) → List (Noted ι (Buffers (E i)))
  tables : List (Noted ι Winners)

/-- What a caller does. Shapes, buffers and tables are named by their places. -/
inductive Command {ι : Type} (E : ι → Type) where
  /-- Resolves a shape for a number of channels. -/
  | resolve (config : PoolConfig) (channels : ℕ)
  /-- Resolves a shape for a map. -/
  | resolveFor (config : PoolConfig) (map : Shape)
  /-- Allocates buffers of a shape. -/
  | allocate (i : ι) (shape regions : ℕ)
  /-- Fills buffers with a pass over a map. -/
  | fill (i : ι) (place : ℕ) (map : Tensor (E i)) (regions : List Region)
  /-- Pools a map and keeps its table. -/
  | pool (i : ι) (map : Tensor (E i)) (regions : List Region) (config : PoolConfig)
  /-- Takes buffers apart and keeps their table. -/
  | takeParts (i : ι) (place : ℕ)
  /-- Copies buffers. -/
  | copyBuffers (i : ι) (place : ℕ)
  /-- Copies the table inside buffers. -/
  | copyWinners (i : ι) (place : ℕ)
  /-- Copies a table. -/
  | copyTable (place : ℕ)
  /-- Forms a table without winners. -/
  | empty (dims : PooledDims)

namespace Session

variable {ι : Type} {E : ι → Type}

/-- Nothing is held. -/
def start : Session E := ⟨[], fun _ ↦ [], []⟩

/-- Keeps one more shape. -/
def addShape (s : Session E) (shape : PooledShape) : Session E :=
  { s with shapes := s.shapes ++ [shape] }

/-- Keeps one more table. -/
def addTable (s : Session E) (table : Noted ι Winners) : Session E :=
  { s with tables := s.tables ++ [table] }

/-- Replaces the buffers of one kind. -/
def setBuffers [DecidableEq ι] (s : Session E) (i : ι) (list : List (Noted ι (Buffers (E i)))) :
    Session E :=
  { s with buffers := Function.update s.buffers i list }

/-- Goes on with a result. A refusal changes nothing, and after any other fault there is no next
session. -/
def follow {β : Type} (s : Session E) (outcome : Except Fault β) (next : β → Session E) :
    Option (Session E) :=
  match outcome with
  | .ok b => some (next b)
  | .error (.rejected _) => some s
  | .error .outOfBounds | .error .overflow => none

/-- Goes on with what is held at a place. -/
def locate {β : Type} (s : Session E) (held : Option β) (next : β → Option (Session E)) :
    Option (Session E) :=
  match held with
  | some b => next b
  | none => some s

variable [DecidableEq ι] [∀ i, Scalar (E i)]

/-- Session after a command, if the command answers. -/
def step (s : Session E) : Command E → Option (Session E)
  | .resolve config channels => s.follow (PooledShape.resolve config channels).outcome s.addShape
  | .resolveFor config map => s.follow (PooledShape.resolveFor config map).outcome s.addShape
  | .allocate i shape regions =>
    s.locate s.shapes[shape]? fun shape ↦
      s.follow (shape.allocate regions) fun fresh ↦
        s.setBuffers i (s.buffers i ++ [⟨fresh, none⟩])
  | .fill i place map regions =>
    s.locate (s.buffers i)[place]? fun b ↦
      s.follow (b.value.fill map regions).outcome fun filled ↦
        s.setBuffers i ((s.buffers i).set place
          ⟨filled, some ⟨i, regions, map.shape, b.value.shape.config⟩⟩)
  | .pool i map regions config =>
    s.follow (RegionPooling.pool map regions config).outcome fun result ↦
      s.addTable ⟨result.2, some ⟨i, regions, map.shape, config⟩⟩
  | .takeParts i place =>
    s.locate (s.buffers i)[place]? fun b ↦
      let rest := s.setBuffers i ((s.buffers i).eraseIdx place)
      rest.follow (Fault.ofRefusal b.value.parts) fun parts ↦ rest.addTable ⟨parts.2, b.pass⟩
  | .copyBuffers i place =>
    s.locate (s.buffers i)[place]? fun b ↦ some (s.setBuffers i (s.buffers i ++ [b]))
  | .copyWinners i place =>
    s.locate (s.buffers i)[place]? fun b ↦ some (s.addTable ⟨b.value.winners, b.pass⟩)
  | .copyTable place => s.locate s.tables[place]? fun t ↦ some (s.addTable t)
  | .empty dims => s.follow (Winners.empty dims) fun w ↦ s.addTable ⟨w, none⟩

/-- Session after a list of commands. -/
def run (s : Session E) (commands : List (Command E)) : Option (Session E) :=
  commands.foldlM step s

/-- Sessions that some commands lead to. -/
def Reachable (s : Session E) : Prop := ∃ commands, start.run commands = some s

/-- Tables held on their own or inside buffers. -/
def Holds (s : Session E) (w : Winners) : Prop :=
  (∃ t ∈ s.tables, t.value = w) ∨ ∃ i, ∃ b ∈ s.buffers i, b.value.winners = w

/-- Tables held on their own or inside buffers, with the pass noted for them. -/
def Keeps (s : Session E) (w : Winners) (pass : Option (Pass ι)) : Prop :=
  (∃ t ∈ s.tables, t.value = w ∧ t.pass = pass) ∨
    ∃ i, ∃ b ∈ s.buffers i, b.value.winners = w ∧ b.pass = pass

/-- Dimensions of the result that a command asks for. -/
def demand (s : Session E) : Command E → Option PooledDims
  | .allocate _ shape regions => s.shapes[shape]?.map (·.dims regions)
  | .fill i place _ regions => (s.buffers i)[place]?.map (·.value.shape.dims regions.length)
  | .pool _ map regions config =>
    map.shape.mapDims?.map fun m ↦ ⟨regions.length, m.channels, config.height, config.width⟩
  | .empty dims => some dims
  | _ => none

/-- Whether all results that a run asks for fit into storage. -/
def fits (s : Session E) : List (Command E) → Bool
  | [] => true
  | c :: commands =>
    (s.demand c).all (fun d ↦ decide (d.shape.occupied ≤ storageLimit)) &&
      (s.step c).all (·.fits commands)

end Session

end RegionPooling
