import IcedTea.Cells
import IcedTea.Ranges
import IcedTea.Writes
import IcedTea.Machine
import IcedTea.WriteSet
import IcedTea.Assembler
import IcedTea.Constants
import IcedTea.Branches
import IcedTea.AssemblyText
import IcedTea.Disassembler
import IcedTea.BitFields
import IcedTea.InstructionForms
import IcedTea.ShiftMacros
import IcedTea.SignedImmediates
import IcedTea.CompareAndExchange
import IcedTea.StackFrame
import IcedTea.StackFrameLayout
import IcedTea.StackFrameRoundTrip
import IcedTea.JavaCallingConvention
import IcedTea.SafepointReturn
import IcedTea.Vm
import IcedTea.MacroAssembler
import IcedTea.NativeEntry
import IcedTea.FrameExtension
import IcedTea.InterpreterState
import IcedTea.CallStub
import IcedTea.CallStubFrame
import IcedTea.CallStubReturn
import IcedTea.JavaArguments
import IcedTea.CallersStack
import IcedTea.MoreMonitors
import IcedTea.FrameManager
import IcedTea.FrameAnchor
import IcedTea.FrameManagerPieces
import IcedTea.ResultConversions
import IcedTea.SignatureHandler
import IcedTea.SignatureHandlerEffect
import IcedTea.SignatureHandlerAbi
import IcedTea.Preprocess
import IcedTea.PreprocessSource
import IcedTea.PreprocessLexing
import IcedTea.PreprocessDirectives
import IcedTea.PreprocessRegions
import IcedTea.PreprocessRenaming
import IcedTea.PreprocessMeaning
import IcedTea.PreprocessBalance
import IcedTea.BytecodeInterpreter
import IcedTea.ByteOrder
import IcedTea.Bytes
import IcedTea.CopyLoop
import IcedTea.ConjointCopy
import IcedTea.LockObject
import IcedTea.InterpreterFrames
import IcedTea.ActivationSize
import IcedTea.WhileLoop
import IcedTea.Jstack
import IcedTea.JstackRecovery
import IcedTea.JstackBlocks
import IcedTea.JniCreateStap
import IcedTea.JniDescriptors
import IcedTea.JniTapset
import IcedTea.SlowSignatureHandler
import IcedTea.SlowSignatureArea
import IcedTea.SlowSignatureWords
import IcedTea.SignatureHandlerParts
import IcedTea.SlowSignatureAgreement
import IcedTea.SignatureHandlerPlaces
import IcedTea.SignatureHandlerDisplacements
import IcedTea.Disassembly
import IcedTea.DisassemblyRegisters
import IcedTea.DisassemblyImmediates
import IcedTea.DisassemblyAgreement
import IcedTea.CallStack
import IcedTea.Activations
import IcedTea.FrameManagerSteps
import IcedTea.FrameManagerReturns
import IcedTea.FrameManagerRuns
import IcedTea.FrameManagerSafety
import IcedTea.CallStubEntries
import IcedTea.StackWalk
import IcedTea.NativeMethod
import IcedTea.FastEntries
import IcedTea.MethodEntries
import IcedTea.SignatureHandlerCalls
