import SafetyGames.Finite.AttractorOrders
import SafetyGames.Finite.AttractorTrap
import SafetyGames.Transducer.FromAutomaton
import SafetyGames.Transducer.Run
import SafetyGames.Transducer.Objects
import SafetyGames.Teacher.ImageGrouping
import SafetyGames.Teacher.Literal
import SafetyGames.Problem.LinearGame
import SafetyGames.Problem.BoxGame
import SafetyGames.Learner.Resume
import SafetyGames.Learner.NodeObjects
import SafetyGames.Solver.Progress
import SafetyGames.Solver.Completeness
import SafetyGames.Solver.Termination
import SafetyGames.Automata.Epsilons
import SafetyGames.Automata.Constructed
import SafetyGames.Solver.LinearGame
