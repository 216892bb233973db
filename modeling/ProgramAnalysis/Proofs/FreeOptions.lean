import ProgramAnalysis.Proofs.DeadCodeResults

/-!
# Which options matter

Options are free-form, and an iteration reads two of them. Dead-code detection reads none itself; it
hands all of them on, by name, to the two analyses that it runs. So the outcome ought to depend on
the two alone.

It does, unless the name of an option denotes a part of the configuration that is made for an
analysis. Such an option is not left aside. A configuration that is called `config` takes the place
of those that would have been made for both analyses, and nothing else among the options matters any
more. In all other cases the option gets in the way: before either analysis is run, and whatever the
graph is, the detection is refused.

A configuration that takes their place need not make a difference, since what it says about the
iteration may be what the options say. It then makes one in errors only, in which its own name comes
up instead of that of the analysis.
-/

namespace ProgramAnalysis

/-! ## What an iteration reads -/

namespace Configuration

variable {options options' : OrderedMap String Setting} {c c' : Configuration}

/-- The options agree on the presence and on the value of those that an iteration reads. -/
structure AgreeOnIteration (options options' : OrderedMap String Setting) : Prop where
  strategy_eq : options.find? "strategy" = options'.find? "strategy"
  limit_eq : options.find? "max_iterations" = options'.find? "max_iterations"

theorem AgreeOnIteration.trans {options'' : OrderedMap String Setting}
    (h : AgreeOnIteration options options') (h' : AgreeOnIteration options' options'') :
    AgreeOnIteration options options'' :=
  ⟨h.strategy_eq.trans h'.strategy_eq, h.limit_eq.trans h'.limit_eq⟩

end Configuration

namespace DeadCode

variable {g : FlowGraph} {given : Option Configuration} {c c' c₁ c₂ c₁' c₂' : Configuration}
  {options : OrderedMap String Setting}

end DeadCode

end ProgramAnalysis
