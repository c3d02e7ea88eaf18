/-
  Catalogs: the sites that a program can name.

  The STANDARD catalog holds the sites that every program can name.  The PROBES beside it answer
  in ways that programs do not need but that show what an engine does: late, from the depth of a
  transaction, with an abort, or through a scripted cohort.
-/
import Orchestra.Code.Lower
import Orchestra.Library.World

namespace Orchestra

/-- Names, and the operations that they stand for. -/
abbrev Catalog := List (String × Operation)

namespace Catalog

/-- The sites that every program can name. -/
def standard : Catalog :=
  [("Println", .print),
   ("Let", .primitive .bundle),
   ("Ift", .primitive (.guard true)),
   ("Iff", .primitive (.guard false)),
   ("Add", .primitive .add),
   ("Sub", .primitive .sub),
   ("Mul", .primitive .mul),
   ("Div", .primitive .div),
   ("Mod", .primitive .mod),
   ("Eq", .primitive .eq),
   ("Less", .primitive .less),
   ("Greater", .primitive .greater),
   ("Error", .primitive .error),
   ("Rtimer", .background .sleep),
   ("Vtimer", .timer 0),
   ("Abort", .abort .halt),
   ("TBuffer", .makeBuffer),
   ("TRef", .makeReference)]

/-- The name of the site that enlists the scripted cohort with the given index. -/
def joinName (index : Nat) : String := "Join" ++ toString (index + 1)

/-- The sites that show what an engine does; one of them for each of some scripted cohorts. -/
def probes (cohorts : Nat) : Catalog :=
  (List.range cohorts).map (fun i => (joinName i, .join ⟨i⟩)) ++
  [("Timer1", .timer 1),
   ("Timer2", .timer 2),
   ("Timer5", .timer 5),
   ("Rec", .primitive .record),
   ("TLet", .background .echo),
   ("THalt", .background (.finish .halt)),
   ("TFail", .background (.finish (.fail (.other "threaded failure")))),
   ("Depth", .depth),
   ("AbortPublish", .abort (.publish (.int 1))),
   ("AbortFail", .abort (.fail (.other "aborting failure"))),
   ("Terminate", .terminate)]

/-- Adds the sites of a catalog to a world and to the names that programs can use. -/
def install (catalog : Catalog) (world : World) : Registry × World :=
  catalog.foldl (fun (registry, world) (name, op) =>
    let (site, world) := world.addSite name op
    (registry.register site, world)) ({}, world)

/-- The names of a catalog, and the world in which they work. -/
def opening (catalog : Catalog) : Registry × World := catalog.install {}

/-- The standard sites and the probes, in a world with scripted cohorts. -/
def probing (policies : List Policy) : Registry × World :=
  let cohorts := policies.mapIdx fun i policy => Cohort.scripted (joinName i) policy
  (standard ++ probes policies.length).install { cohorts := cohorts.toArray }

end Catalog
end Orchestra
