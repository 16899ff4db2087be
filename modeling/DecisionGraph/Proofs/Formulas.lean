import DecisionGraph.Proofs.Building
import DecisionGraph.Proofs.Record

namespace DecisionGraph

/-- Logic that reads the current scope and nothing else. -/
abbrev Formula := Bindings Value → Except EvalError Answer

/-- The host of formulas, with no one to listen. -/
def Host.functions : Host Formula Unit where
  listening _ := false
  notify _ w := w
  answer _ f e w := (f e.context.bindings, e, w)
  observe _ _ w := w

theorem Host.functions_quiet : functions.Quiet := fun _ _ _ _ => rfl

/-- The host of formulas, with a listener who keeps all events. -/
def Host.telling : Host Formula (List Event) where
  listening _ := true
  notify e w := w ++ [e]
  answer _ f e w := (f e.context.bindings, e, w)
  observe _ _ w := w

theorem Host.telling_quiet : telling.Quiet := fun _ _ _ _ => rfl

namespace Formula

def copy (name : String) : Formula := fun b => .ok (.success ((b.find? name).getD .null))

def copyBelow (outer name : String) : Formula := fun b =>
  .ok (.success ((((b.find? outer).bind Value.entries?).bind (·.find? name)).getD .null))

def function (name : String) : Formula := fun _ =>
  .ok (.success (.function ⟨name, [], .const .null, 0⟩))

def defined (name : String) : Formula := fun b => .ok (.success (.boolean (b.contains name)))

def any : DeclaredType := ⟨"Any", false, fun _ => .ok true⟩

theorem answer_copy {m : Model Formula} {e e' : Evaluation} {name : String}
    (h : e.context.get? name = e'.context.get? name) (w w' : Unit) :
    (Host.functions.answer m (copy name) e w).1 =
      (Host.functions.answer m (copy name) e' w').1 := by
  show copy name e.context.bindings = copy name e'.context.bindings
  unfold copy
  rw [Context.find?_bindings, Context.find?_bindings, h]

theorem answer_defined {m : Model Formula} {e e' : Evaluation} {name : String}
    (h : e.context.get? name = e'.context.get? name) (w w' : Unit) :
    (Host.functions.answer m (defined name) e w).1 =
      (Host.functions.answer m (defined name) e' w').1 := by
  show defined name e.context.bindings = defined name e'.context.bindings
  unfold defined Bindings.contains
  rw [Context.find?_bindings, Context.find?_bindings, h]

def net : Node Formula :=
  ⟨⟨"2", "net", "urn:prices", "prices", .cons "amount" 0 .nil, .empty⟩,
    .decision any (some (copy "amount"))⟩

def total : Node Formula :=
  ⟨⟨"3", "total", "urn:prices", "prices", .cons "net" 1 .nil, .empty⟩,
    .decision any (some (copy "net"))⟩

def prices : Model Formula where
  id := "prices"
  ns := "urn:prices"
  name := "prices"
  typeCheck := false
  nodes := #[⟨⟨"1", "amount", "urn:prices", "prices", .nil, .empty⟩, .input any⟩, net, total]
  imports := .empty

def due : Node Formula :=
  ⟨⟨"1", "due", "urn:orders", "orders", .cons "p.total" 2 .nil,
    ⟨[⟨"urn:prices", "prices", "p"⟩]⟩⟩, .decision any (some (copyBelow "p" "total"))⟩

def orders : Model Formula where
  id := "orders"
  ns := "urn:orders"
  name := "orders"
  typeCheck := false
  nodes := prices.nodes.push due
  imports := ⟨[⟨"urn:prices", "prices", "p"⟩]⟩

def pricesRequest : Request Formula Unit := ⟨prices, .functions, true, 4, .alwaysDescend⟩

def ordersRequest : Request Formula Unit := { pricesRequest with model := orders }

def pricesInput : Context := .ofEntries (.cons "amount" (.boolean true) .nil)

def ordersInput : Context := .ofEntries (.cons "p" (.context pricesInput.entries) .nil)

def ordersRecord : List (Sighting Formula) := ordersRequest.record .all ordersInput ()

def deskImports : ImportTable :=
  ⟨[⟨"urn:prices", "prices", "p"⟩, ⟨"urn:orders", "orders", "o"⟩]⟩

def early : Node Formula :=
  ⟨⟨"1", "early", "urn:desk", "desk", .cons "p.total" 2 .nil, deskImports⟩,
    .decision any (some (copyBelow "p" "total"))⟩

def late : Node Formula :=
  ⟨⟨"2", "late", "urn:desk", "desk", .cons "o.due" 6 .nil, deskImports⟩,
    .decision any (some (copyBelow "o" "due"))⟩

def imported : List (Node Formula) :=
  prices.nodes.toList ++ orders.nodes.toList.map (Builder.shifted 3)

def desk : Model Formula where
  id := "desk"
  ns := "urn:desk"
  name := "desk"
  typeCheck := false
  nodes := (imported ++ [early, late]).toArray
  imports := deskImports

def deskRequest : Request Formula Unit := ⟨desk, .functions, true, 9, .alwaysDescend⟩

def deskInput : Context := .ofEntries (.cons "p" (.context pricesInput.entries)
  (.cons "o" (.context ordersInput.entries) .nil))

def rates : Model Formula where
  id := "rates"
  ns := "urn:rates"
  name := "rates"
  typeCheck := false
  nodes := #[⟨⟨"1", "rate", "urn:rates", "rates", .nil, .empty⟩,
    .decision any (some (defined "rate"))⟩]
  imports := .empty

def kioskImports : ImportTable := ⟨[⟨"urn:rates", "rates", "vat"⟩]⟩

/-- A decision with the name under which the kiosk imports the rates. -/
def vat : Node Formula :=
  ⟨⟨"1", "vat", "urn:kiosk", "kiosk", .nil, kioskImports⟩, .decision any (some (copy "taxed"))⟩

def gross : Node Formula :=
  ⟨⟨"2", "gross", "urn:kiosk", "kiosk", .cons "vat.rate" 0 .nil, kioskImports⟩,
    .decision any (some (copyBelow "vat" "rate"))⟩

def kiosk : Model Formula where
  id := "kiosk"
  ns := "urn:kiosk"
  name := "kiosk"
  typeCheck := false
  nodes := (rates.nodes.toList ++ [vat, gross]).toArray
  imports := kioskImports

def kioskRequest : Request Formula Unit := ⟨kiosk, .functions, true, 4, .alwaysDescend⟩

def price : Node Formula :=
  ⟨⟨"1", "price", "urn:circular", "circular", .cons "discount" 1 .nil, .empty⟩,
    .decision any (some (copy "discount"))⟩

def discount : Node Formula :=
  ⟨⟨"2", "discount", "urn:circular", "circular", .cons "price" 0 .nil, .empty⟩,
    .decision any (some (copy "price"))⟩

def rate : Node Formula :=
  ⟨⟨"3", "rate", "urn:circular", "circular", .cons "quote" 3 .nil, .empty⟩,
    .knowledge (some (function "rate"))⟩

def quote : Node Formula :=
  ⟨⟨"4", "quote", "urn:circular", "circular", .cons "rate" 2 .nil, .empty⟩,
    .decision any (some (defined "rate"))⟩

/-- Two decisions that need each other, and a function and a decision that do so as well. -/
def circular : Model Formula where
  id := "circular"
  ns := "urn:circular"
  name := "circular"
  typeCheck := false
  nodes := #[price, discount, rate, quote]
  imports := .empty

def circularRequest : Request Formula Unit := ⟨circular, .functions, true, 4, .alwaysDescend⟩

def circularRecord : List (Sighting Formula) := circularRequest.record .all .empty ()

/-- A decision that gives up and says nothing. -/
def offer : Node Formula :=
  ⟨⟨"1", "offer", "urn:market", "market", .nil, .empty⟩,
    .decision any (some fun _ => .ok .failure)⟩

def deal : Node Formula :=
  ⟨⟨"2", "deal", "urn:market", "market", .cons "offer" 0 .nil, .empty⟩,
    .decision any (some (copy "offer"))⟩

def market : Model Formula where
  id := "market"
  ns := "urn:market"
  name := "market"
  typeCheck := false
  nodes := #[offer, deal]
  imports := .empty

theorem prices_built : prices.Built := by
  let b : Builder Formula := ((((Builder.new "urn:prices" "prices").addNode "1" "amount"
    (.input any)).2.addNode "2" "net" (.decision any (some (copy "amount")))).2.addNode "3" "total"
    (.decision any (some (copy "net")))).2
  have hb : b.Made := .addNode _ _ _ (.addNode _ _ _ (.addNode _ _ _ (.new _ _)))
  have hsteps : ∃ b₁ b₂, b.dependsOn 1 0 = .ok b₁ ∧ b₁.dependsOn 2 1 = .ok b₂ ∧
      Builder.firstRepeated? [] b₂.ownNodeNames = none ∧
      prices = ⟨b₂.id.getD "prices", b₂.ns, b₂.name, b₂.typeCheck,
        (b₂.nodes.toList.map b₂.withImports).toArray, b₂.imports⟩ :=
    ⟨_, _, rfl, rfl, rfl, rfl⟩
  obtain ⟨b₁, b₂, h₁, h₂, hnames, hm⟩ := hsteps
  refine ⟨b₂, "prices", (hb.dependsOn h₁).dependsOn h₂, ?_⟩
  rw [hm]
  exact Builder.build_eq hnames "prices"

/-- A node before its imports are known. -/
def unlinked (n : Node Formula) : Node Formula :=
  { n with info := { n.info with imports := .empty } }

/-- A node before its dependencies are declared. -/
def bare (n : Node Formula) : Node Formula :=
  { n with info := { n.info with dependencies := .nil, imports := .empty } }

def ordering : Builder Formula :=
  ⟨none, "urn:orders", "orders", false, prices.nodes, orders.imports,
    Bindings.nil.insert "p" (Builder.ownNames 0 prices)⟩

theorem addImport_ordering :
    (Builder.new "urn:orders" "orders").addImport "p" prices = .ok ordering :=
  Builder.addImport_eq rfl prices

theorem dependsOn_ordering : (ordering.addNode "1" "due" due.role).2.dependsOn 3 2 =
    .ok { ordering with nodes := prices.nodes.push (unlinked due) } := rfl

theorem build_ordering : Builder.build { ordering with nodes := prices.nodes.push (unlinked due) }
    "orders" = .ok orders := Builder.build_eq rfl "orders"

theorem orders_built : orders.Built := by
  obtain ⟨lib, freshId, hlib, hbuild⟩ := prices_built
  have hb : (ordering.addNode "1" "due" due.role).2.Made :=
    .addNode "1" "due" due.role (.addImport (.new _ _) hlib hbuild addImport_ordering)
  exact ⟨_, "orders", hb.dependsOn dependsOn_ordering, build_ordering⟩

theorem desk_built : desk.Built := by
  let names : Bindings (Bindings Nat) := Bindings.nil.insert "p" (Builder.ownNames 0 prices)
  let b (own : List (Node Formula)) : Builder Formula :=
    ⟨none, "urn:desk", "desk", false, (imported ++ own).toArray, deskImports,
      names.insert "o" (Builder.ownNames 3 orders)⟩
  obtain ⟨plib, pid, hp, hpbuild⟩ := prices_built
  obtain ⟨olib, oid, ho, hobuild⟩ := orders_built
  have hprices : (Builder.new "urn:desk" "desk").addImport "p" prices =
    .ok ⟨none, "urn:desk", "desk", false, prices.nodes, orders.imports, names⟩ :=
    Builder.addImport_eq rfl prices
  have horders : (⟨none, "urn:desk", "desk", false, prices.nodes, orders.imports, names⟩ :
    Builder Formula).addImport "o" orders = .ok (b []) := Builder.addImport_eq rfl orders
  have hb : (b [bare early, bare late]).Made :=
    .addNode "2" "late" late.role (.addNode "1" "early" early.role
      (.addImport (.addImport (.new _ _) hp hpbuild hprices) ho hobuild horders))
  have h₁ : (b [bare early, bare late]).dependsOn 7 2 =
    .ok (b [unlinked early, bare late]) := rfl
  have h₂ : (b [unlinked early, bare late]).dependsOn 8 6 =
    .ok (b [unlinked early, unlinked late]) := rfl
  exact ⟨_, "desk", (hb.dependsOn h₁).dependsOn h₂, Builder.build_eq rfl "desk"⟩

end Formula

end DecisionGraph
