import NormalGrammar.Event
import NormalGrammar.FreshNames

/-!
# Terminals on their own

In a body of two symbols every terminal `a` is replaced by a nonterminal that stands for it, its proxy `T_a`.  A
terminal has one proxy, which owns the single body `a`.  Bodies of any other length stay as they are.
-/

namespace NormalGrammar

/-- A nonterminal that stands for a terminal. -/
structure Proxy where
  terminal : Terminal
  nonterminal : Nonterminal

namespace Proxy

/-- The production of a proxy. -/
def rule (p : Proxy) : Rule Body := ⟨p.nonterminal, [.terminal p.terminal]⟩

/-- A terminal that has a proxy is replaced by it. -/
def replace (proxies : List Proxy) : Symbol → Symbol
  | .terminal t =>
    match proxies.find? fun p => decide (p.terminal = t) with
    | some p => .nonterminal p.nonterminal
    | none => .terminal t
  | .nonterminal A => .nonterminal A

def isolateRule (proxies : List Proxy) (r : Rule Body) : Rule Body :=
  if r.body.length = 2 then ⟨r.owner, r.body.map (replace proxies)⟩ else r

def event (p : Proxy) : Event :=
  ⟨.trace, .isolation, s!"Introducing {p.nonterminal.text} → {p.terminal.text}"⟩

end Proxy

/-- The terminals that occur in bodies of two symbols, in order of their first occurrence. -/
def Grammar.pairedTerminals (G : Grammar) : OrderedSet Terminal :=
  .ofList ((G.rules.filter fun r => r.body.length = 2).flatMap fun r => r.body.terminals)

namespace Draft

/-- Finds a proxy for one terminal after the other. -/
def proxies : List Terminal → Draft → List Proxy × Draft
  | [], d => ([], d)
  | t :: terminals, d =>
    let (P, d) := d.newProxy t
    let (rest, d) := proxies terminals d
    (⟨t, P⟩ :: rest, d)

def isolate (d : Draft) : Draft :=
  let (proxies, e) := proxies d.grammar.pairedTerminals.toList d
  e.withProductions (d.grammar.rules.map (Proxy.isolateRule proxies) ++ proxies.map Proxy.rule)

def isolationEvents (d : Draft) : List Event :=
  ⟨.debug, .isolation, "Isolating terminals in binary productions"⟩ ::
    (proxies d.grammar.pairedTerminals.toList d).1.map Proxy.event

end Draft

end NormalGrammar
